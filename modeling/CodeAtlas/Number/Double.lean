import CodeAtlas.Number.Decimal

/-! Numbers of double precision, each known by the decimal of fewest digits that no other double is
nearer to. `Double.ofDecimal` rounds any decimal to the nearest double, a half to the even one, and
gives that double's shortest decimal. All arithmetic is exact. -/

namespace CodeAtlas.Number

inductive Double
  | finite (value : Decimal)
  | infinite (negative : Bool)
  | notANumber
  deriving DecidableEq, Repr

namespace Double

structure Binary where
  mantissa : Nat
  power : Int
  deriving DecidableEq, Repr

def twoTo (n : Nat) : Nat := Nat.pow 2 n
def tenTo (n : Nat) : Nat := Nat.pow 10 n

def leastPower : Int := -1074
def greatestPower : Int := 971

def roundDiv (num den : Nat) : Nat :=
  let q := num / den
  let r := num % den
  if 2 * r < den then q
  else if 2 * r > den then q + 1
  else if q % 2 = 0 then q else q + 1

def Binary.ratio (b : Binary) (factor : Nat) : Nat × Nat :=
  if b.power ≥ 0 then (factor * twoTo b.power.toNat, 1) else (factor, twoTo (-b.power).toNat)

def powerOf (num den : Nat) : Int :=
  let estimate : Int := (num.log2 : Int) - den.log2
  let reached :=
    if estimate ≥ 0 then den * twoTo estimate.toNat ≤ num else den ≤ num * twoTo (-estimate).toNat
  max ((if reached then estimate else estimate - 1) - 52) leastPower

def nearest (num den : Nat) : Option Binary :=
  let power := powerOf num den
  let mantissa :=
    if power ≥ 0 then roundDiv num (den * twoTo power.toNat)
    else roundDiv (num * twoTo (-power).toNat) den
  let result : Binary := if mantissa = twoTo 53 then ⟨twoTo 52, power + 1⟩ else ⟨mantissa, power⟩
  if result.power > greatestPower then none else some result

def magnitude (num den : Nat) : Int :=
  if den ≤ num then (decimalDigits (num / den)).length
  else
    let size : Int := (decimalDigits (den / num)).length
    if num * tenTo (size.toNat - 1) = den then 2 - size else 1 - size

/-- Whether `digits * 10 ^ exponent` is nearer to the double than to its neighbours. The two halves
of the way belong to it if its mantissa is even. -/
def names (b : Binary) (digits : Nat) (exponent : Int) : Bool :=
  let below := if b.mantissa = twoTo 52 ∧ b.power > leastPower then 1 else 2
  let (low, den) := b.ratio (4 * b.mantissa - below)
  let (high, _) := b.ratio (4 * b.mantissa + 2)
  let (value, scale) :=
    if exponent ≥ 0 then (digits * tenTo exponent.toNat * 4 * den, 1)
    else (digits * 4 * den, tenTo (-exponent).toNat)
  if b.mantissa % 2 = 0 then low * scale ≤ value && value ≤ high * scale
  else low * scale < value && value < high * scale

def withDigits (b : Binary) (count : Nat) : Option (Nat × Int) :=
  let (num, den) := b.ratio b.mantissa
  let exponent := magnitude num den - count
  let (num, den) :=
    if exponent ≥ 0 then (num, den * tenTo exponent.toNat) else (num * tenTo (-exponent).toNat, den)
  let close := roundDiv num den
  let other := if close * den ≤ num then close + 1 else close - 1
  if names b close exponent then some (close, exponent)
  else if names b other exponent then some (other, exponent)
  else none

def shortest (b : Binary) : Nat × Int :=
  ((List.range 17).findSome? fun i => withDigits b (i + 1)).getD (b.mantissa, b.power)

def ofDecimal (d : Decimal) : Double :=
  let size : Int := (decimalDigits d.digits).length + d.exponent
  if d.digits = 0 ∨ size < -330 then .finite ⟨d.negative, 0, 0⟩
  else if size > 310 then .infinite d.negative
  else
    let (num, den) :=
      if d.exponent ≥ 0 then (d.digits * tenTo d.exponent.toNat, 1)
      else (d.digits, tenTo (-d.exponent).toNat)
    match nearest num den with
    | none => .infinite d.negative
    | some b =>
      if b.mantissa = 0 then .finite ⟨d.negative, 0, 0⟩
      else
        let (digits, exponent) := shortest b
        let (digits, exponent) := trimZeros digits exponent
        .finite ⟨d.negative, digits, exponent⟩

def toInt? : Double → Option Int
  | .finite d =>
    if d.digits = 0 then some 0
    else if d.exponent < 0 then none
    else
      (nearest (d.digits * tenTo d.exponent.toNat) 1).map fun b =>
        let (num, den) := b.ratio b.mantissa
        if d.negative then -(num / den : Nat) else (num / den : Nat)
  | _ => none

end Double

end CodeAtlas.Number
