/-!
# The shortest decimal of a binary number

A binary64 value stands for every real number that rounds to it. `shortest` finds the decimal with
the fewest digits among those reals, and of two with equally few the nearer one. All arithmetic is
exact.
-/

namespace HotSwap.Decimal

/-- `digits · 10 ^ exponent`. -/
structure Scientific where
  digits : Nat
  exponent : Int
  deriving DecidableEq

/-- A fraction with a positive denominator. -/
structure Ratio where
  num : Nat
  den : Nat

def Ratio.lt (a b : Ratio) : Bool := a.num * b.den < b.num * a.den

def Ratio.within (low high : Ratio) (closed : Bool) (x : Ratio) : Bool :=
  if closed then !x.lt low && !high.lt x else low.lt x && x.lt high

def Scientific.ratio (s : Scientific) : Ratio :=
  ⟨s.digits * Nat.pow 10 s.exponent.toNat, Nat.pow 10 (-s.exponent).toNat⟩

/-- `count · 2 ^ exponent`. -/
def binary (count : Nat) (exponent : Int) : Ratio :=
  ⟨count * Nat.pow 2 exponent.toNat, Nat.pow 2 (-exponent).toNat⟩

def Scientific.trim : Nat → Scientific → Scientific
  | 0, s => s
  | fuel + 1, s =>
    if s.digits ≠ 0 ∧ s.digits % 10 = 0 then trim fuel ⟨s.digits / 10, s.exponent + 1⟩ else s

/-- The exponent `p` with `10 ^ p ≤ x < 10 ^ (p + 1)`, for `x` not below `10 ^ -400`. -/
def Ratio.magnitude (x : Ratio) : Int :=
  (Nat.toDigits 10 (x.num * Nat.pow 10 400 / x.den)).length - 401

/-- The neighbours of `x` on the grid of multiples of `10 ^ exponent`, and the one that passes. -/
def nearest? (x : Ratio) (exponent : Int) (ok : Ratio → Bool) : Option Scientific :=
  let unit := Scientific.ratio ⟨1, exponent⟩
  let below : Scientific := ⟨x.num * unit.den / (x.den * unit.num), exponent⟩
  let above : Scientific := ⟨below.digits + 1, exponent⟩
  let middle := Scientific.ratio ⟨2 * below.digits + 1, exponent⟩
  let twice : Ratio := ⟨2 * x.num, x.den⟩
  match ok below.ratio, ok above.ratio with
  | true, true =>
    if twice.lt middle then some below
    else if middle.lt twice then some above
    else if below.digits % 2 = 0 then some below else some above
  | true, false => some below
  | false, true => some above
  | false, false => none

/-- Shortest decimal of `mantissa · 2 ^ exponent`, a positive binary64 value. -/
def shortest (mantissa : Nat) (exponent : Int) : Scientific :=
  let x := binary (4 * mantissa) (exponent - 2)
  let high := binary (4 * mantissa + 2) (exponent - 2)
  let gap := if mantissa = 0x10000000000000 ∧ -1074 < exponent then 1 else 2
  let low := binary (4 * mantissa - gap) (exponent - 2)
  let p := x.magnitude
  let hit := (List.range 17).findSome? fun (n : Nat) =>
    nearest? x (p - n) (Ratio.within low high (mantissa % 2 == 0))
  (hit.getD ⟨0, 0⟩).trim 20

/-- What the bits of a binary64 number say. -/
inductive Parts
  | nan
  | infinite (negative : Bool)
  | finite (negative : Bool) (mantissa : Nat) (exponent : Int)
  deriving DecidableEq

def Parts.ofBits (bits : UInt64) : Parts :=
  let n := bits.toNat
  let negative := decide (0x8000000000000000 ≤ n)
  let biased : Nat := n / 0x10000000000000 % 0x800
  let fraction := n % 0x10000000000000
  if biased = 0x7ff then
    if fraction = 0 then .infinite negative else .nan
  else if biased = 0 then .finite negative fraction (-1074)
  else .finite negative (0x10000000000000 + fraction) (biased - 1075)

/-- Where the point may stand for a number to be written without an exponent, counted from the
left end of its digits. -/
structure Layout where
  least : Int
  greatest : Int

def zeros (n : Nat) : String := String.ofList (List.replicate n '0')

def Layout.place (l : Layout) (s : Scientific) : String :=
  let ds := Nat.toDigits 10 s.digits
  let point := ds.length + s.exponent
  if l.least ≤ point ∧ point ≤ l.greatest then
    if 0 ≤ s.exponent then String.ofList ds ++ zeros s.exponent.toNat ++ ".0"
    else if 0 < point then
      String.ofList (ds.take point.toNat) ++ "." ++ String.ofList (ds.drop point.toNat)
    else "0." ++ zeros (-point).toNat ++ String.ofList ds
  else
    let power := "e" ++ toString (point - 1)
    match ds with
    | [d] => String.ofList [d] ++ power
    | _ => String.ofList (ds.take 1) ++ "." ++ String.ofList (ds.drop 1) ++ power

def Layout.text (l : Layout) (bits : UInt64) : String :=
  let signed (negative : Bool) (s : String) := if negative then "-" ++ s else s
  match Parts.ofBits bits with
  | .nan => "NaN"
  | .infinite negative => signed negative "inf"
  | .finite negative 0 _ => signed negative "0.0"
  | .finite negative mantissa exponent => signed negative (l.place (shortest mantissa exponent))

/-- Numbers in JSON text: no exponent from `1e-5` up to below `1e16`. -/
def Layout.json : Layout := ⟨-4, 16⟩

def Layout.diagnostic : Layout := ⟨-3, 16⟩

end HotSwap.Decimal
