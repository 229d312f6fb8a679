/-!
Nonnegative binary numbers of 53 significant bits, the quotients of counts rounded to
them, and their decimal texts: with a fixed number of places, rounded from the exact
value, and with the fewest digits from which the number can be read back. The exponent
is not bounded here: quotients of 64-bit counts stay far inside the range of the 64-bit
format.
-/
namespace VertexPack

/-- The integer nearest to a quotient; a tie goes to the even one. -/
def roundDiv (num den : Nat) : Nat :=
  let q := num / den
  let r := num % den
  if 2 * r < den ∨ (2 * r = den ∧ q % 2 = 0) then q else q + 1

def twoTo (n : Nat) : Nat := Nat.pow 2 n

def tenTo (n : Nat) : Nat := Nat.pow 10 n

/-- The number `mantissa * 2 ^ exponent`. -/
structure Binary64 where
  /-- Zero, or a number of exactly 53 bits. -/
  mantissa : Nat
  exponent : Int
  deriving Repr, DecidableEq

namespace Binary64

def zero : Binary64 := ⟨0, 0⟩

def scale (x : Binary64) (e : Int) : Binary64 := ⟨x.mantissa, x.exponent + e⟩

def scaled (num den : Nat) (e : Int) : Nat × Nat :=
  (num * twoTo (-e).toNat, den * twoTo e.toNat)

/-- The number nearest to a quotient; a tie goes to the even mantissa. -/
def ofRatio (num den : Nat) : Binary64 :=
  if num = 0 then zero
  else
    let low : Int := (num.log2 : Int) - den.log2 - 53
    let (n, d) := scaled num den low
    let e := if n < twoTo 53 * d then low else low + 1
    let (n, d) := scaled num den e
    let m := roundDiv n d
    if m = twoTo 53 then ⟨twoTo 52, e + 1⟩ else ⟨m, e⟩

def ofNat (n : Nat) : Binary64 := ofRatio n 1

def div (x y : Binary64) : Binary64 :=
  (ofRatio x.mantissa y.mantissa).scale (x.exponent - y.exponent)

def mulNat (x : Binary64) (n : Nat) : Binary64 := (ofRatio (x.mantissa * n) 1).scale x.exponent

def toBits (x : Binary64) : Nat :=
  if x.mantissa = 0 then 0 else (x.exponent + 1075).toNat * twoTo 52 + (x.mantissa - twoTo 52)

/-- The part in the whole, both rounded before they are divided; nothing of nothing is zero. -/
def share (part whole : Nat) : Binary64 :=
  if whole = 0 ∨ part = 0 then zero else div (ofNat part) (ofNat whole)

end Binary64

def padLeft (n : Nat) (text : String) : String :=
  String.ofList (List.replicate (n - text.length) ' ') ++ text

def placePoint (places digits : Nat) : String :=
  if places = 0 then toString digits
  else
    let fraction := toString (digits % tenTo places)
    let zeros := String.ofList (List.replicate (places - fraction.length) '0')
    toString (digits / tenTo places) ++ "." ++ zeros ++ fraction

structure Decimal where
  digits : Nat
  exponent : Int
  deriving Repr, DecidableEq

def Decimal.positional (d : Decimal) : String :=
  if 0 ≤ d.exponent then toString (d.digits * tenTo d.exponent.toNat) ++ ".0"
  else placePoint (-d.exponent).toNat d.digits

namespace Binary64

def fixed (places : Nat) (x : Binary64) : String :=
  let (num, den) := scaled (x.mantissa * tenTo places) 1 (-x.exponent)
  placePoint places (roundDiv num den)

/-- The multiple of `10 ^ p` nearest to `x` among those that are read back as `x`. A quarter
of the last place of `x` is the unit in which the ends of the interval of such numbers are
whole; the ends belong to it if the mantissa is even. -/
def onGrid (x : Binary64) (p : Int) : Option Decimal :=
  let e := x.exponent - 2
  let step := tenTo p.toNat * twoTo (-e).toNat
  let unit := tenTo (-p).toNat * twoTo e.toNat
  let value := 4 * x.mantissa * unit
  let low := value - (if x.mantissa = twoTo 52 then 1 else 2) * unit
  let high := value + 2 * unit
  let inside := fun d : Nat =>
    if x.mantissa % 2 = 0 then low ≤ d * step && d * step ≤ high
    else low < d * step && d * step < high
  let below := value / step
  let above := below + 1
  match inside below, inside above with
  | true, true =>
    if 2 * value ≤ (below + above) * step then some ⟨below, p⟩ else some ⟨above, p⟩
  | true, false => some ⟨below, p⟩
  | false, true => some ⟨above, p⟩
  | false, false => none

def shortestFrom (x : Binary64) : Nat → Int → Option Decimal
  | 0, _ => none
  | n + 1, p =>
    match onGrid x p with
    | some d => some d
    | none => shortestFrom x n (p - 1)

/-- The decimal with the fewest digits that is read back as `x`: of the coarsest grid that
has one. The grids reach from beyond the largest 64-bit number to below the smallest. -/
def shortest (x : Binary64) : Decimal :=
  if x.mantissa = 0 then ⟨0, 0⟩ else (shortestFrom x 700 309).getD ⟨0, 0⟩

end Binary64
end VertexPack
