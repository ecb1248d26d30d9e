import HotSwap.Decimal.Shortest
/-!
# JSON values

Signal values, props, context values and metadata are JSON. Members of an object are listed by
increasing key.
-/

namespace HotSwap

inductive Number
  | integer (value : Int)
  | real (bits : UInt64)
  deriving DecidableEq

inductive Json
  | null
  | bool (value : Bool)
  | number (value : Number)
  | string (value : String)
  | array (items : List Json)
  | object (members : List (String × Json))

namespace Number

/-- Integers from `-2 ^ 63` to `2 ^ 64 - 1` are kept exactly, all other numbers as binary64. -/
def ofInt (i : Int) : Number :=
  if -0x8000000000000000 ≤ i ∧ i < 0x10000000000000000 then .integer i
  else .real (if i < 0 then -(Float.ofNat i.natAbs) else Float.ofNat i.natAbs).toBits

def ofDecimal (mantissa : Int) (places : Nat) : Number :=
  if places = 0 then ofInt mantissa
  else
    let size := Float.ofScientific mantissa.natAbs true places
    .real (if mantissa < 0 then -size else size).toBits

def text : Number → String
  | .integer i => toString i
  | .real bits => Decimal.Layout.json.text bits

def word? : Number → Option Int
  | .integer i => if -0x8000000000000000 ≤ i ∧ i < 0x8000000000000000 then some i else none
  | .real _ => none

end Number

namespace Json

instance : Inhabited Json := ⟨null⟩

def ofNat (n : Nat) : Json := .number (.ofInt n)

def truthy : Json → Bool
  | .null => false
  | .bool b => b
  | .number (.integer i) => i != 0
  | .number (.real bits) => bits.toNat % 0x8000000000000000 != 0
  | .string s => s != ""
  | .array _ => true
  | .object _ => true

/-- What arithmetic sees of a value: all but 64-bit signed integers count as zero. -/
def word : Json → Int
  | .number n => n.word?.getD 0
  | _ => 0

def ofWord (i : Int) : Json := .number (.integer (i.bmod 0x10000000000000000))

def member (key : String) : Json → Json
  | .object ms => ((ms.find? fun m => m.1 == key).map Prod.snd).getD .null
  | _ => .null

mutual

def same : Json → Json → Bool
  | .null, .null => true
  | .bool a, .bool b => a == b
  | .number a, .number b => a == b
  | .string a, .string b => a == b
  | .array a, .array b => sameItems a b
  | .object a, .object b => sameMembers a b
  | _, _ => false

def sameItems : List Json → List Json → Bool
  | [], [] => true
  | a :: as, b :: bs => same a b && sameItems as bs
  | _, _ => false

def sameMembers : List (String × Json) → List (String × Json) → Bool
  | [], [] => true
  | (k, a) :: as, (l, b) :: bs => k == l && same a b && sameMembers as bs
  | _, _ => false

end

end Json

end HotSwap
