import HotSwap.Config.Basic
import HotSwap.Decline.Json
/-!
# Configurations as JSON

Written with all fields; read with the standard value for each field that is missing.
-/

namespace HotSwap.Config

open Json

def toJson (c : Config) : List Char :=
  braced [field "transport" c.transport.toJson,
    field "dev_mode" (compact (.bool c.devMode)),
    field "decline" (DeclineTable.toJson c.decline)]

structure Slots where
  transport : Option Flavor := none
  devMode : Option Bool := none
  decline : Option DeclineTable := none

def member (key : String) (s : Slots) : Reader Slots := do
  match key with
  | "transport" =>
    return { s with transport := some (← Reader.once "transport" s.transport Flavor.reader) }
  | "dev_mode" =>
    return { s with devMode := some (← Reader.once "dev_mode" s.devMode Reader.bool) }
  | "decline" =>
    return { s with decline := some (← Reader.once "decline" s.decline DeclineTable.reader) }
  | _ => Reader.ignored; return s

def finish (s : Slots) : Reader Config :=
  return { transport := s.transport.getD standard.transport
           devMode := s.devMode.getD standard.devMode
           decline := s.decline.getD standard.decline }

def positional : Reader Config := do
  let transport ← Reader.item true Flavor.reader (pure standard.transport)
  let devMode ← Reader.item false Reader.bool (pure standard.devMode)
  let decline ← Reader.item false DeclineTable.reader (pure standard.decline)
  return { transport, devMode, decline }

def reader : Reader Config := Reader.record "RefreshConfig" {} member finish positional

def ofJson (text : String) : Except Error Config :=
  (Reader.parse reader text).mapError .configuration

end HotSwap.Config
