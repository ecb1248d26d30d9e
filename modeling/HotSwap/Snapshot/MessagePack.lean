import HotSwap.Error
import HotSwap.MessagePack.Reader
import HotSwap.MessagePack.Writer
import HotSwap.Snapshot.Basic
/-!
# Snapshots as MessagePack

Maps with names as keys; absent fields of an entry are left out when written. When read, absent
fields may be missing or `nil`, and bytes behind the snapshot are left alone.
-/

namespace HotSwap

open MessagePack

namespace ComponentEntry

def packedField (key : String) (write : α → List UInt8) : Option α → List (List UInt8)
  | some a => [MessagePack.field key (write a)]
  | none => []

def toMessagePack (e : ComponentEntry) : List UInt8 :=
  MessagePack.map ([MessagePack.field "id" (MessagePack.string e.id),
      MessagePack.field "name" (MessagePack.string e.name)]
    ++ packedField "signature" MessagePack.string e.signature
    ++ packedField "dependencies" MessagePack.strings e.dependencies
    ++ packedField "location" MessagePack.string e.location)

structure Packed where
  id : Option String := none
  name : Option String := none
  signature : Option (Option String) := none
  dependencies : Option (Option (List String)) := none
  location : Option (Option String) := none

def packedNames : List String := ["id", "name", "signature", "dependencies", "location"]

def packedString : Decoder (Option String) := Decoder.option Decoder.string

def packedStrings : Decoder (Option (List String)) := Decoder.option (Decoder.list Decoder.string)

def packedMember (key : String) (s : Packed) : Decoder Packed := do
  match key with
  | "id" => return { s with id := some (← Decoder.once s.id Decoder.string) }
  | "name" => return { s with name := some (← Decoder.once s.name Decoder.string) }
  | "signature" => return { s with signature := some (← Decoder.once s.signature packedString) }
  | "dependencies" =>
    return { s with dependencies := some (← Decoder.once s.dependencies packedStrings) }
  | "location" => return { s with location := some (← Decoder.once s.location packedString) }
  | _ => Decoder.fail

def packedFinish (s : Packed) : Decoder ComponentEntry := do
  let id ← Decoder.required s.id
  let name ← Decoder.required s.name
  return { id, name
           signature := s.signature.join
           dependencies := s.dependencies.join
           location := s.location.join }

/-- An array of two to five fields; trailing optional ones may be missing. -/
def packedPositional (n : Nat) : Decoder ComponentEntry := do
  if n < 2 ∨ 5 < n then Decoder.fail
  else
    let id ← Decoder.string
    let name ← Decoder.string
    let signature ← if 2 < n then packedString else pure none
    let dependencies ← if 3 < n then packedStrings else pure none
    let location ← if 4 < n then packedString else pure none
    return { id, name, signature, dependencies, location }

def decoder : Decoder ComponentEntry :=
  Decoder.record packedNames (Decoder.nestingLimit - 3) {} packedMember packedFinish
    packedPositional

end ComponentEntry

namespace Snapshot

def toMessagePack (s : Snapshot) : List UInt8 :=
  MessagePack.map [
    MessagePack.field "components"
      (MessagePack.array (s.components.map ComponentEntry.toMessagePack)),
    MessagePack.field "contexts" (MessagePack.strings s.contexts)]

structure Packed where
  components : Option (List ComponentEntry) := none
  contexts : Option (List String) := none

def packedNames : List String := ["components", "contexts"]

def packedEntries : Decoder (List ComponentEntry) := Decoder.list ComponentEntry.decoder

def packedContexts : Decoder (List String) := Decoder.list Decoder.string

def packedMember (key : String) (s : Packed) : Decoder Packed := do
  match key with
  | "components" => return { s with components := some (← Decoder.once s.components packedEntries) }
  | "contexts" => return { s with contexts := some (← Decoder.once s.contexts packedContexts) }
  | _ => Decoder.fail

def packedFinish (s : Packed) : Decoder Snapshot := do
  let components ← Decoder.required s.components
  let contexts ← Decoder.required s.contexts
  return { components, contexts }

def packedPositional (n : Nat) : Decoder Snapshot := do
  if n = 2 then
    let components ← packedEntries
    let contexts ← packedContexts
    return { components, contexts }
  else Decoder.fail

def decoder : Decoder Snapshot :=
  Decoder.record packedNames (Decoder.nestingLimit - 1) {} packedMember packedFinish
    packedPositional

def ofMessagePack (bytes : List UInt8) : Except Error Snapshot :=
  match decoder bytes with
  | some (s, _) => .ok s
  | none => .error .undecodable

end Snapshot

end HotSwap
