/-!
# Reading MessagePack

A `Decoder` takes a value off the front of the bytes and leaves the rest. Any width of header is
read. Records stand as maps or as arrays of their fields; the keys of a map are names, or numbers of
fields in an unsigned format, and members with another key are passed over.
-/

namespace HotSwap.MessagePack

abbrev Decoder := StateT (List UInt8) Option

namespace Decoder

def fail : Decoder α := fun _ => none

def take (n : Nat) : Decoder (List UInt8) := fun bs =>
  let (front, rest) := bs.splitAt n
  if front.length = n then some (front, rest) else none

def natural (n : Nat) : Decoder Nat :=
  return (← take n).foldl (fun a b => 256 * a + b.toNat) 0

inductive Header
  | nil
  | bool (value : Bool)
  | unsigned (value : Nat)
  | signed
  | float
  | text (bytes : Nat)
  | binary (bytes : Nat)
  | array (items : Nat)
  | map (members : Nat)
  | extension (bytes : Nat)
  deriving DecidableEq

/-- Reads the header. Numbers are scalars without a body, so their bytes are taken with it. -/
def header : Decoder Header := do
  let b := ((← take 1).headD 0).toNat
  if b < 0x80 then return .unsigned b
  else if b < 0x90 then return .map (b - 0x80)
  else if b < 0xa0 then return .array (b - 0x90)
  else if b < 0xc0 then return .text (b - 0xa0)
  else if b = 0xc0 then return .nil
  else if b = 0xc1 then fail
  else if b = 0xc2 then return .bool false
  else if b = 0xc3 then return .bool true
  else if b = 0xc4 then return .binary (← natural 1)
  else if b = 0xc5 then return .binary (← natural 2)
  else if b = 0xc6 then return .binary (← natural 4)
  else if b = 0xc7 then return .extension (← natural 1)
  else if b = 0xc8 then return .extension (← natural 2)
  else if b = 0xc9 then return .extension (← natural 4)
  else if b = 0xca then let _ ← take 4; return .float
  else if b = 0xcb then let _ ← take 8; return .float
  else if b = 0xcc then return .unsigned (← natural 1)
  else if b = 0xcd then return .unsigned (← natural 2)
  else if b = 0xce then return .unsigned (← natural 4)
  else if b = 0xcf then return .unsigned (← natural 8)
  else if b = 0xd0 then let _ ← take 1; return .signed
  else if b = 0xd1 then let _ ← take 2; return .signed
  else if b = 0xd2 then let _ ← take 4; return .signed
  else if b = 0xd3 then let _ ← take 8; return .signed
  else if b = 0xd4 then return .extension 1
  else if b = 0xd5 then return .extension 2
  else if b = 0xd6 then return .extension 4
  else if b = 0xd7 then return .extension 8
  else if b = 0xd8 then return .extension 16
  else if b = 0xd9 then return .text (← natural 1)
  else if b = 0xda then return .text (← natural 2)
  else if b = 0xdb then return .text (← natural 4)
  else if b = 0xdc then return .array (← natural 2)
  else if b = 0xdd then return .array (← natural 4)
  else if b = 0xde then return .map (← natural 2)
  else if b = 0xdf then return .map (← natural 4)
  else return .signed

def nestingLimit : Nat := 1023

def times (read : Decoder α) : Nat → Decoder (List α)
  | 0 => pure []
  | n + 1 => do
    let x ← read
    let xs ← times read n
    return x :: xs

def repeatedly (step : Decoder Unit) : Nat → Decoder Unit
  | 0 => pure ()
  | n + 1 => do step; repeatedly step n

def skip (depth : Nat) : Decoder Unit := do
  match ← header with
  | .text n => let _ ← take n
  | .binary n => let _ ← take n
  | .extension n => let _ ← take (n + 1)
  | .array n =>
    match depth with
    | 0 => fail
    | inner + 1 => repeatedly (skip inner) n
  | .map n =>
    match depth with
    | 0 => fail
    | inner + 1 => repeatedly (do skip inner; skip inner) n
  | _ => pure ()

def utf8 (n : Nat) : Decoder String := do
  match String.fromUTF8? (← take n).toByteArray with
  | some s => return s
  | none => fail

def string : Decoder String := do
  match ← header with
  | .text n => utf8 n
  | .binary n => utf8 n
  | _ => fail

def option (read : Decoder α) : Decoder (Option α) := fun bs =>
  match bs with
  | 0xc0 :: rest => some (none, rest)
  | _ => (some <$> read).run bs

def list (item : Decoder α) : Decoder (List α) := do
  match ← header with
  | .array n => times item n
  | _ => fail

inductive Key
  | name (s : String)
  | index (n : Nat)
  | unknown
  deriving DecidableEq

def key : Decoder Key := do
  match ← header with
  | .unsigned n => return .index n
  | .text n => return ((String.fromUTF8? (← take n).toByteArray).map Key.name).getD .unknown
  | .binary n => return ((String.fromUTF8? (← take n).toByteArray).map Key.name).getD .unknown
  | _ => fail

def Key.field? (names : List String) : Key → Option String
  | .name s => if s ∈ names then some s else none
  | .index n => names[n]?
  | .unknown => none

def members (names : List String) (depth : Nat) (member : String → σ → Decoder σ) :
    Nat → σ → Decoder σ
  | 0, s => pure s
  | n + 1, s => do
    match (← key).field? names with
    | some f => members names depth member n (← member f s)
    | none => skip depth; members names depth member n s

def once (slot : Option α) (read : Decoder α) : Decoder α := if slot.isSome then fail else read

def required : Option α → Decoder α
  | some a => pure a
  | none => fail

/-- A record that stands `depth` levels above the deepest value allowed. -/
def record (names : List String) (depth : Nat) (start : σ) (member : String → σ → Decoder σ)
    (finish : σ → Decoder α) (positional : Nat → Decoder α) : Decoder α := do
  match ← header with
  | .map n => finish (← members names depth member n start)
  | .array n => positional n
  | _ => fail

end Decoder

end HotSwap.MessagePack
