/-! Finite decimals and how they are written. A decimal is written in positions if its point falls
after one of the first sixteen digits or at most three zeros before the first one; otherwise it is
written with an exponent of at least two digits. -/

namespace CodeAtlas.Number

/-- The number `digits * 10 ^ exponent`, or its negative. Zero has a sign too. -/
structure Decimal where
  negative : Bool
  digits : Nat
  exponent : Int
  deriving DecidableEq, Repr

def decimalDigits (n : Nat) : List Char := Nat.toDigits 10 n

def trimZeros (digits : Nat) (exponent : Int) : Nat × Int :=
  if h : digits ≠ 0 ∧ digits % 10 = 0 then trimZeros (digits / 10) (exponent + 1)
  else (digits, exponent)
termination_by digits
decreasing_by omega

def positional (digits : List Char) (point : Int) : List Char :=
  if point ≤ 0 then '0' :: '.' :: (List.replicate (-point).toNat '0' ++ digits)
  else
    let whole := point.toNat
    if digits.length ≤ whole then
      digits ++ List.replicate (whole - digits.length) '0' ++ ['.', '0']
    else digits.take whole ++ '.' :: digits.drop whole

def scientific (digits : List Char) (power : Int) : List Char :=
  let mantissa := match digits with
    | [] => []
    | [d] => [d]
    | d :: ds => d :: '.' :: ds
  let size := decimalDigits power.natAbs
  mantissa ++ 'e' :: (if power < 0 then '-' else '+') ::
    (List.replicate (2 - size.length) '0' ++ size)

def Decimal.toChars (d : Decimal) : List Char :=
  let digits := decimalDigits d.digits
  let point : Int := if d.digits = 0 then 1 else digits.length + d.exponent
  let body :=
    if -4 < point ∧ point ≤ 16 then positional digits point else scientific digits (point - 1)
  if d.negative then '-' :: body else body

end CodeAtlas.Number
