import DeviceModel.Decimal

/-!
Binary floating point of 64 bits, in exact arithmetic: the number nearest to a fraction, products and
quotients with powers of ten, and the fewest decimal digits to which a number is nearest.
-/

namespace DeviceModel

/-- The finite number `± mantissa * 2 ^ exponent`; the mantissa has at most 53 bits. -/
structure Binary64 where
  negative : Bool
  mantissa : Nat
  exponent : Int
  deriving DecidableEq, Repr, Inhabited

namespace Binary64

def minExponent : Int := -1074

def maxExponent : Int := 971

/-- `n / (d * 2 ^ e)` as a fraction. -/
def scaled (n d : Nat) (e : Int) : Nat × Nat := (n * Nat.pow 2 (-e).toNat, d * Nat.pow 2 e.toNat)

/-- The number nearest to `n / d`, a tie going to the even mantissa; `none` past the largest. -/
def nearest? (negative : Bool) (n d : Nat) : Option Binary64 :=
  if n = 0 then some ⟨negative, 0, minExponent⟩
  else
    let e : Int := (n.log2 : Int) - d.log2 - 53
    let (p, q) := scaled n d e
    let e := max minExponent (if Nat.pow 2 53 ≤ p / q then e + 1 else e)
    let (p, q) := scaled n d e
    let m := Decimal.roundQuotient p q
    let (m, e) := if m = Nat.pow 2 53 then (Nat.pow 2 52, e + 1) else (m, e)
    if maxExponent < e then none else some ⟨negative, m, e⟩

/-- The size of `x` as a fraction. -/
def size (x : Binary64) : Nat × Nat :=
  (x.mantissa * Nat.pow 2 x.exponent.toNat, Nat.pow 2 (-x.exponent).toNat)

/-- The number nearest to `x * y`. -/
def mul? (x y : Binary64) : Option Binary64 :=
  let (a, b) := x.size
  let (c, d) := y.size
  nearest? (x.negative != y.negative) (a * c) (b * d)

/-- The number nearest to `x / y`. -/
def div? (x y : Binary64) : Option Binary64 :=
  let (a, b) := x.size
  let (c, d) := y.size
  if c = 0 then none else nearest? (x.negative != y.negative) (a * d) (b * c)

/-- The highest power of ten that has a nearest number. -/
def maxPower : Nat := 308

/-- The number nearest to `10 ^ k`. -/
def power? (k : Nat) : Option Binary64 :=
  if k ≤ maxPower then nearest? false (Nat.pow 10 k) 1 else none

/-- `x / 10 ^ k`, rounded after each division: by `10 ^ 308` until the rest of the power is no
higher, then by the rest. -/
def lower? (x : Binary64) (k : Nat) : Option Binary64 :=
  if k ≤ maxPower then do x.div? (← power? k)
  else if x.mantissa = 0 then some x
  else do lower? (← x.div? (← power? maxPower)) (k - maxPower)
termination_by k
decreasing_by simp [maxPower] at *; omega

/-- `n * 10 ^ e`, rounded step by step: first `n`, then its product with the power of ten or its
quotient by it. So the number may be another than the nearest one. -/
def ofScientific? (negative : Bool) (n : Nat) (e : Int) : Option Binary64 := do
  let x ← nearest? negative n 1
  if e < 0 then lower? x e.natAbs
  else if x.mantissa = 0 then some x
  else x.mul? (← power? e.toNat)

/-- The integer nearest to `i` that is a number. -/
def roundInt (i : Int) : Int :=
  match nearest? (i < 0) i.natAbs 1 with
  | some x =>
    let (a, b) := x.size
    Decimal.signed x.negative (a / b)
  | none => i

/-- `10 ^ k` over a quarter of the last place of `x`. -/
def step (x : Binary64) (k : Int) : Nat × Nat :=
  (Nat.pow 10 k.toNat * Nat.pow 2 (2 - x.exponent).toNat,
    Nat.pow 10 (-k).toNat * Nat.pow 2 (x.exponent - 2).toNat)

/-- The highest place of `x` from `k` down, at most `fuel` places below. -/
def leading (x : Binary64) : Nat → Int → Int
  | 0, k => k
  | fuel + 1, k =>
    let (a, b) := x.step k
    if a ≤ 4 * x.mantissa * b then k else leading x fuel (k - 1)

/-- `d * 10 ^ k`, for the step `a / b` of that place, rounds to `x`. -/
def rounds (x : Binary64) (a b d : Nat) : Bool :=
  let down := if x.mantissa = Nat.pow 2 52 ∧ minExponent < x.exponent then 1 else 2
  let low := (4 * x.mantissa - down) * b
  let high := (4 * x.mantissa + 2) * b
  if x.mantissa % 2 = 0 then low ≤ d * a && d * a ≤ high else low < d * a && d * a < high

/-- The first place from `k` down at which a number of that place rounds to `x`, and the nearest
such number. -/
def shortestFrom (x : Binary64) : Nat → Int → Nat × Int
  | 0, k => (0, k)
  | fuel + 1, k =>
    let (a, b) := x.step k
    let v := 4 * x.mantissa * b
    let low := v / a
    let below := v - low * a
    let lowNearer := 2 * below < a || 2 * below == a && low % 2 == 0
    if x.rounds a b low && (lowNearer || !x.rounds a b (low + 1)) then (low, k)
    else if x.rounds a b (low + 1) then (low + 1, k)
    else shortestFrom x fuel (k - 1)

/-- The fewest digits `d` and their last place `k`, such that `x` is nearest to `d * 10 ^ k`. A number
just below a power of ten may have that power as its nearest, which ends in a zero. -/
def shortest (x : Binary64) : Nat × Int :=
  if x.mantissa = 0 then (0, 0)
  else
    let (d, k) := x.shortestFrom 18 (x.leading 640 310)
    if d % 10 = 0 then (d / 10, k + 1) else (d, k)

end Binary64

end DeviceModel
