import HotSwap.Decline.Table
import HotSwap.Json.Decode
import HotSwap.Json.Writer
/-!
# Flavors, strategies, rules and tables as JSON

Enumerations stand under their names. A table is an object whose keys are flavors; of two members
with one key the later wins, at the place of the earlier.
-/

namespace HotSwap

open Json

def Flavor.toJson (f : Flavor) : List Char := quoted f.name

def Flavor.reader : Reader Flavor := Reader.variant Flavor.named

def Strategy.toJson (s : Strategy) : List Char := quoted s.name

def Strategy.reader : Reader Strategy := Reader.variant Strategy.named

namespace DeclineRule

def toJson (r : DeclineRule) : List Char :=
  braced [field "gate" r.gate.toJson, field "inline" r.inlined.toJson]

structure Slots where
  gate : Option Strategy := none
  inlined : Option Strategy := none

def member (key : String) (s : Slots) : Reader Slots := do
  match key with
  | "gate" => return { s with gate := some (← Reader.once "gate" s.gate Strategy.reader) }
  | "inline" => return { s with inlined := some (← Reader.once "inline" s.inlined Strategy.reader) }
  | _ => Reader.ignored; return s

def finish (s : Slots) : Reader DeclineRule := do
  let gate ← Reader.required "gate" s.gate
  let inlined ← Reader.required "inline" s.inlined
  return { gate, inlined }

def positional : Reader DeclineRule := do
  let tooShort (n : Nat) : Reader Strategy := Reader.mismatch (.wrongLength n "DeclineRule" 2)
  let gate ← Reader.item true Strategy.reader (tooShort 0)
  let inlined ← Reader.item false Strategy.reader (tooShort 1)
  return { gate, inlined }

def reader : Reader DeclineRule := Reader.record "DeclineRule" {} member finish positional

end DeclineRule

namespace DeclineTable

def toJson (t : DeclineTable) : List Char :=
  braced (t.entries.map fun e => field e.1.name e.2.toJson)

def member (t : DeclineTable) : Reader DeclineTable := do
  let f ← Flavor.reader
  Reader.colon
  let r ← DeclineRule.reader
  return t.insert f r

def reader : Reader DeclineTable := Reader.object "a map" .empty member

end DeclineTable

end HotSwap
