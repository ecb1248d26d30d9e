import HotSwap.Decline.Table
import HotSwap.Error
/-!
# Configuration

Which flavor of dev server to talk to, whether the reactive runtime exposes its development half,
and how to decline. Variables of the environment override the first two.
-/

namespace HotSwap

structure Config where
  transport : Flavor := .esm
  devMode : Bool := true
  decline : DeclineTable := .standard

namespace Config

def standard : Config := {}

def same (a b : Config) : Bool :=
  a.transport == b.transport && a.devMode == b.devMode && a.decline.same b.decline

def transportVariable : String := "REFRESH_TRANSPORT"

def devModeVariable : String := "REFRESH_DEV_MODE"

/-- The characters of Unicode's property `White_Space`. -/
def isSpace (c : Char) : Bool :=
  let n := c.toNat
  (0x9 ≤ n && n ≤ 0xd) || n == 0x20 || n == 0x85 || n == 0xa0 || n == 0x1680
    || (0x2000 ≤ n && n ≤ 0x200a) || n == 0x2028 || n == 0x2029 || n == 0x202f || n == 0x205f
    || n == 0x3000

def trim (s : String) : String :=
  String.ofList (((s.toList.dropWhile isSpace).reverse.dropWhile isSpace).reverse)

def lower (s : String) : String := String.ofList (s.toList.map Char.toLower)

def flavorOf (s : String) : Except Error Flavor :=
  match Flavor.ofName? s with
  | some f => .ok f
  | none => .error (.unknownTransport s)

def devModeOf (s : String) : Except Error Bool :=
  if s ∈ ["1", "true", "yes", "on"] then .ok true
  else if s ∈ ["0", "false", "no", "off", ""] then .ok false
  else .error (.invalidVariable devModeVariable s)

def ofVariables (lookup : String → Option String) : Except Error Config := do
  let transport ← match lookup transportVariable with
    | some v => flavorOf (trim v)
    | none => pure standard.transport
  let devMode ← match lookup devModeVariable with
    | some v => devModeOf (lower (trim v))
    | none => pure standard.devMode
  return { transport, devMode }

end Config

end HotSwap
