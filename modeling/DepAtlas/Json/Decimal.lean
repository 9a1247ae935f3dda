/-! # Shortest decimals

The fewest decimal digits that identify a binary floating point number, found by exact arithmetic.
-/

namespace DepAtlas.Decimal

/-- A finite non-negative number `mantissa * 2 ^ exponent` of 53 bits. -/
structure Binary where
  mantissa : Nat
  exponent : Int
  /-- The number below is only half as far away as the number above. -/
  narrowBelow : Bool
  deriving DecidableEq, Repr

def Binary.ofBits (bits : UInt64) : Binary :=
  let e := ((bits >>> 52) &&& 0x7FF).toNat
  let f := (bits &&& 0xFFFFFFFFFFFFF).toNat
  if e = 0 then ⟨f, -1074, false⟩ else ⟨0x10000000000000 + f, (e : Int) - 1075, f = 0 && e > 1⟩

/-- The number `digits * 10 ^ exponent`. -/
structure Scaled where
  digits : Nat
  exponent : Int
  deriving DecidableEq, Repr

/-- Compares `a * 10 ^ i` with `n * 2 ^ j`. -/
def compareScaled (a : Nat) (i : Int) (n : Nat) (j : Int) : Ordering :=
  compare (a * Nat.pow 10 i.toNat * Nat.pow 2 (-j).toNat)
    (n * Nat.pow 2 j.toNat * Nat.pow 10 (-i).toNat)

/-- Whether a decimal lies among the reals that round to `x`. -/
def Binary.readsBack (x : Binary) (d : Scaled) : Bool :=
  let low := if x.narrowBelow then 4 * x.mantissa - 1 else 4 * x.mantissa - 2
  let closed := x.mantissa % 2 = 0
  let l := compareScaled d.digits d.exponent low (x.exponent - 2)
  let h := compareScaled d.digits d.exponent (4 * x.mantissa + 2) (x.exponent - 2)
  (l == .gt || (closed && l == .eq)) && (h == .lt || (closed && h == .eq))

/-- The least `k` from `low` on, in at most `steps` steps, with `x < 10 ^ k`. -/
def Binary.scaleFrom (x : Binary) : Nat → Int → Int
  | 0, k => k
  | n + 1, k => if compareScaled 1 k x.mantissa x.exponent == .gt then k else x.scaleFrom n (k + 1)

/-- The multiple of `10 ^ e` at or below `x`, in units of it. -/
def Binary.floorAt (x : Binary) (e : Int) : Nat :=
  (x.mantissa * Nat.pow 2 x.exponent.toNat * Nat.pow 10 (-e).toNat) /
    (Nat.pow 2 (-x.exponent).toNat * Nat.pow 10 e.toNat)

/-- The neighbour of `x` on the grid `10 ^ e` that reads back, the nearer one of two and the even
one in between. -/
def Binary.onGrid? (x : Binary) (e : Int) : Option Scaled :=
  let f := x.floorAt e
  let below : Scaled := ⟨f, e⟩
  let above : Scaled := ⟨f + 1, e⟩
  match x.readsBack below, x.readsBack above with
  | true, true =>
    match compareScaled (2 * f + 1) e (2 * x.mantissa) x.exponent with
    | .gt => some below
    | .lt => some above
    | .eq => if f % 2 = 0 then some below else some above
  | true, false => some below
  | false, true => some above
  | false, false => none

def stripZeros : Nat → Scaled → Scaled
  | 0, d => d
  | n + 1, d =>
    if d.digits ≠ 0 && d.digits % 10 = 0 then stripZeros n ⟨d.digits / 10, d.exponent + 1⟩ else d

/-- The decimal with the fewest digits that reads back as `x`. -/
def Binary.shortest (x : Binary) : Scaled :=
  if x.mantissa = 0 then ⟨0, 0⟩
  else
    let k := x.scaleFrom 700 (-330)
    match (List.range 17).findSome? fun (n : Nat) => x.onGrid? (k - ((n : Int) + 1)) with
    | some d => stripZeros 20 d
    | none =>
      if x.exponent ≥ 0 then ⟨x.mantissa * Nat.pow 2 x.exponent.toNat, 0⟩
      else ⟨x.mantissa * Nat.pow 5 (-x.exponent).toNat, x.exponent⟩

end DepAtlas.Decimal
