import HotSwap.Error
import HotSwap.Json.Decode
import HotSwap.Json.Writer
import HotSwap.Snapshot.Basic
/-!
# Snapshots as JSON

Absent fields of an entry are left out when written; when read they may be missing or `null`.
-/

namespace HotSwap

open Json

namespace ComponentEntry

def optionalField (key : String) (write : α → List Char) : Option α → List (List Char)
  | some a => [field key (write a)]
  | none => []

def toJson (e : ComponentEntry) : List Char :=
  braced ([field "id" (quoted e.id), field "name" (quoted e.name)]
    ++ optionalField "signature" quoted e.signature
    ++ optionalField "dependencies" strings e.dependencies
    ++ optionalField "location" quoted e.location)

structure Slots where
  id : Option String := none
  name : Option String := none
  signature : Option (Option String) := none
  dependencies : Option (Option (List String)) := none
  location : Option (Option String) := none

def optionalString : Reader (Option String) := Reader.option Reader.string

def optionalStrings : Reader (Option (List String)) := Reader.option (Reader.list Reader.string)

def member (key : String) (s : Slots) : Reader Slots := do
  match key with
  | "id" => return { s with id := some (← Reader.once "id" s.id Reader.string) }
  | "name" => return { s with name := some (← Reader.once "name" s.name Reader.string) }
  | "signature" =>
    return { s with signature := some (← Reader.once "signature" s.signature optionalString) }
  | "dependencies" =>
    return { s with
      dependencies := some (← Reader.once "dependencies" s.dependencies optionalStrings) }
  | "location" =>
    return { s with location := some (← Reader.once "location" s.location optionalString) }
  | _ => Reader.ignored; return s

def finish (s : Slots) : Reader ComponentEntry := do
  let id ← Reader.required "id" s.id
  let name ← Reader.required "name" s.name
  return { id, name
           signature := s.signature.join
           dependencies := s.dependencies.join
           location := s.location.join }

def positional : Reader ComponentEntry := do
  let tooShort (n : Nat) : Reader String := Reader.mismatch (.wrongLength n "ComponentEntry" 5)
  let id ← Reader.item true Reader.string (tooShort 0)
  let name ← Reader.item false Reader.string (tooShort 1)
  let signature ← Reader.item false optionalString (pure none)
  let dependencies ← Reader.item false optionalStrings (pure none)
  let location ← Reader.item false optionalString (pure none)
  return { id, name, signature, dependencies, location }

def reader : Reader ComponentEntry := Reader.record "ComponentEntry" {} member finish positional

end ComponentEntry

namespace Snapshot

def toJson (s : Snapshot) : List Char :=
  braced [field "components" (bracketed (s.components.map ComponentEntry.toJson)),
    field "contexts" (strings s.contexts)]

structure Slots where
  components : Option (List ComponentEntry) := none
  contexts : Option (List String) := none

def entries : Reader (List ComponentEntry) := Reader.list ComponentEntry.reader

def names : Reader (List String) := Reader.list Reader.string

def member (key : String) (s : Slots) : Reader Slots := do
  match key with
  | "components" =>
    return { s with components := some (← Reader.once "components" s.components entries) }
  | "contexts" => return { s with contexts := some (← Reader.once "contexts" s.contexts names) }
  | _ => Reader.ignored; return s

def finish (s : Slots) : Reader Snapshot := do
  let components ← Reader.required "components" s.components
  let contexts ← Reader.required "contexts" s.contexts
  return { components, contexts }

def positional : Reader Snapshot := do
  let tooShort {α : Type} (n : Nat) : Reader α :=
    Reader.mismatch (.wrongLength n "RegistrySnapshot" 2)
  let components ← Reader.item true entries (tooShort 0)
  let contexts ← Reader.item false names (tooShort 1)
  return { components, contexts }

def reader : Reader Snapshot := Reader.record "RegistrySnapshot" {} member finish positional

def jsonText (s : Snapshot) : String := String.ofList s.toJson

def ofJson (text : String) : Except Error Snapshot :=
  (Reader.parse reader text).mapError .configuration

end Snapshot

end HotSwap
