import HotSwap.Json.Reader
import HotSwap.OrderedMap
/-!
# Reading values of a known shape

Records stand as objects, whose unknown members are passed over, or as arrays of their fields.
Enumerations stand as a name, or as an object whose one member has that name and holds `null`.
-/

namespace HotSwap.Json.Reader

def mismatch (m : Mismatch) : Reader α := fail (.mismatch m)

/-- Adds digits to `n` as long as it stays below `2 ^ 64`; answers the sum, how many digits it
took, and the text from the first one it did not take. -/
def takeDigits (n taken : Nat) : List Char → Nat × Nat × List Char
  | [] => (n, taken, [])
  | c :: cs =>
    if isDigit c ∧ 10 * n + digitValue c < 0x10000000000000000 then
      takeDigits (10 * n + digitValue c) (taken + 1) cs
    else (n, taken, c :: cs)

def scale : Nat → Float → Int → Except Fault Float
  | 0, f, _ => .ok f
  | fuel + 1, f, exponent =>
    if exponent.natAbs ≤ 308 then
      let power := Float.ofScientific 1 false exponent.natAbs
      if 0 ≤ exponent then
        if (f * power).isInf then .error .malformed else .ok (f * power)
      else .ok (f / power)
    else if f == 0 then .ok f
    else if 0 ≤ exponent then .error .malformed
    else scale fuel (f / Float.ofScientific 1 false 308) (exponent + 308)

def realOf (positive : Bool) (n : Nat) (exponent : Int) : Except Fault Found := do
  let f ← scale 8 n.toUInt64.toFloat exponent
  return .real (if positive then f else -f).toBits

def exponentOf (positive : Bool) (n : Nat) (start : Int) (cs : List Char) : Except Fault Found :=
  let (up, rest) := match cs with
    | '+' :: r => (true, r)
    | '-' :: r => (false, r)
    | r => (true, r)
  match rest with
  | [] => .error .unfinished
  | c :: r =>
    if isDigit c then
      let ds := c :: r.takeWhile isDigit
      let e : Int := ds.foldl (fun a d => 10 * a + digitValue d) 0
      realOf positive n (if up then start + e else start - e)
    else .error .malformed

def fractionOf (positive : Bool) (n : Nat) (start : Int) (cs : List Char) : Except Fault Found :=
  let (m, taken, rest) := takeDigits n 0 cs
  let exponent := start - taken
  match rest with
  | [] => if taken = 0 then .error .unfinished else realOf positive m exponent
  | c :: _ =>
    if taken = 0 ∧ !isDigit c then .error .malformed
    else match dropDigits rest with
      | 'e' :: r => exponentOf positive m exponent r
      | 'E' :: r => exponentOf positive m exponent r
      | _ => realOf positive m exponent

def integerOf (positive : Bool) (n : Nat) (cs : List Char) : Except Fault Found :=
  let left := (cs.takeWhile isDigit).length
  match dropDigits cs with
  | '.' :: r => fractionOf positive n left r
  | 'e' :: r => exponentOf positive n left r
  | 'E' :: r => exponentOf positive n left r
  | _ =>
    if left ≠ 0 then realOf positive n left
    else if positive then .ok (.integer n)
    else if n = 0 ∨ 0x8000000000000000 < n then .ok (.real (-(n.toUInt64.toFloat)).toBits)
    else .ok (.integer (-(n : Int)))

def numberOf (positive : Bool) : List Char → Except Fault Found
  | [] => .error .unfinished
  | '0' :: cs =>
    match cs with
    | c :: _ => if isDigit c then .error .malformed else integerOf positive 0 cs
    | [] => integerOf positive 0 []
  | c :: cs =>
    if isDigit c then
      let (n, _, rest) := takeDigits 0 0 (c :: cs)
      integerOf positive n rest
    else .error .malformed

/-- The value in front is not what was asked for. It is read as far as the report needs. -/
def wrongKind (expected : String) : Reader α := fun cs => do
  let report (found : Found) : Except Fault (α × List Char) :=
    .error (.mismatch (.wrongKind found expected))
  match cs with
  | 'n' :: r => let _ ← exactly ['u', 'l', 'l'] r; report .null
  | 't' :: r => let _ ← exactly ['r', 'u', 'e'] r; report (.boolean true)
  | 'f' :: r => let _ ← exactly ['a', 'l', 's', 'e'] r; report (.boolean false)
  | '"' :: r => let (s, _) ← stringTail r; report (.string s)
  | '[' :: _ => report .sequence
  | '{' :: _ => report .map
  | '-' :: r => report (← numberOf false r)
  | c :: r => if isDigit c then report (← numberOf true (c :: r)) else .error .malformed
  | [] => .error .malformed

def bool : Reader Bool := do
  match ← peek with
  | none => fail .unfinished
  | some c =>
    if c = 't' then advance; exactly ['r', 'u', 'e']; return true
    else if c = 'f' then advance; exactly ['a', 'l', 's', 'e']; return false
    else wrongKind "a boolean"

def stringAs (expected : String) : Reader String := do
  match ← peek with
  | none => fail .unfinished
  | some c => if c = '"' then advance; stringTail else wrongKind expected

def string : Reader String := stringAs "a string"

def unit : Reader Unit := do
  match ← peek with
  | none => fail .unfinished
  | some c => if c = 'n' then advance; exactly ['u', 'l', 'l'] else wrongKind "unit"

def option (read : Reader α) : Reader (Option α) := do
  match ← peek with
  | some c =>
    if c = 'n' then advance; exactly ['u', 'l', 'l']; return none else return some (← read)
  | none => return some (← read)

def moreItems (first : Bool) : Reader Bool := do
  match ← peek with
  | none => fail .unfinished
  | some c =>
    if c = ']' then return false
    else if first then return true
    else if c = ',' then
      advance
      match ← peek with
      | none => fail .unfinished
      | some d => if d = ']' then fail .malformed else return true
    else fail .malformed

def closeArray : Reader Unit := do
  match ← peek with
  | none => fail .unfinished
  | some c => if c = ']' then advance else fail .malformed

def items (item : Reader α) : Nat → Bool → Reader (List α)
  | 0, _ => fail .malformed
  | fuel + 1, first => do
    if ← moreItems first then
      let x ← item
      let xs ← items item fuel false
      return x :: xs
    else return []

def fuelled (read : Nat → Reader α) : Reader α := fun cs => read (cs.length + 1) cs

def list (item : Reader α) : Reader (List α) := do
  match ← peek with
  | none => fail .unfinished
  | some c =>
    if c = '[' then
      advance
      let xs ← fuelled fun n => items item n true
      closeArray
      return xs
    else wrongKind "a sequence"

def item (first : Bool) (read absent : Reader α) : Reader α := do
  if ← moreItems first then read else absent

def moreMembers (first : Bool) : Reader Bool := do
  match ← peek with
  | none => fail .unfinished
  | some c =>
    if c = '}' then return false
    else if first then
      if c = '"' then return true else fail .malformed
    else if c = ',' then
      advance
      match ← peek with
      | none => fail .unfinished
      | some d => if d = '"' then return true else fail .malformed
    else fail .malformed

def colon : Reader Unit := do
  match ← peek with
  | none => fail .unfinished
  | some c => if c = ':' then advance else fail .malformed

def closeObject : Reader Unit := do
  match ← peek with
  | none => fail .unfinished
  | some c => if c = '}' then advance else fail .malformed

/-- Reads members up to the closing brace. `member` is given the state so far and reads the key,
the colon and the value. -/
def members (member : σ → Reader σ) : Nat → Bool → σ → Reader σ
  | 0, _, _ => fail .malformed
  | fuel + 1, first, s => do
    if ← moreMembers first then
      let t ← member s
      members member fuel false t
    else return s

def object (expected : String) (start : σ) (member : σ → Reader σ) : Reader σ := do
  match ← peek with
  | none => fail .unfinished
  | some c =>
    if c = '{' then
      advance
      let s ← fuelled fun n => members member n true start
      closeObject
      return s
    else wrongKind expected

def once (name : String) (slot : Option α) (read : Reader α) : Reader α :=
  if slot.isSome then mismatch (.duplicateField name) else do colon; read

def ignored : Reader Unit := do colon; skip

def required (name : String) : Option α → Reader α
  | some a => pure a
  | none => mismatch (.missingField name)

/-- A record as an object, whose members fill slots and are then put together, or as an array. -/
def record (name : String) (start : σ) (member : String → σ → Reader σ) (finish : σ → Reader α)
    (positional : Reader α) : Reader α := do
  match ← peek with
  | none => fail .unfinished
  | some c =>
    if c = '[' then
      advance
      let a ← positional
      closeArray
      return a
    else if c = '{' then
      advance
      let s ← fuelled fun n => members (fun s => do member (← string) s) n true start
      let a ← finish s
      closeObject
      return a
    else wrongKind ("struct " ++ name)

def variantName (variants : List (String × α)) (name : String) : Reader α :=
  match variants.lookup name with
  | some a => pure a
  | none => mismatch (.unknownVariant name (variants.map Prod.fst))

def variant (variants : List (String × α)) : Reader α := do
  match ← peek with
  | none => fail .unfinished
  | some c =>
    if c = '{' then
      advance
      let name ← stringAs "variant identifier"
      let a ← variantName variants name
      colon
      unit
      closeObject
      return a
    else if c = '"' then
      let name ← string
      variantName variants name
    else fail .malformed

def parse (read : Reader α) (text : String) : Except Fault α :=
  match read text.toList with
  | .error f => .error f
  | .ok (a, rest) => if (skipBlanks rest).isEmpty then .ok a else .error .malformed

end HotSwap.Json.Reader
