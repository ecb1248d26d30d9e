import HotSwap.Decimal.Shortest
import HotSwap.Text.Diagnostic
/-!
# What can be wrong with a JSON text

A text is malformed, or it ends too early, or it is JSON of another shape than the one asked for.
A reader goes from left to right and reports the first fault it meets.
-/

namespace HotSwap.Json

inductive Found
  | null
  | boolean (value : Bool)
  | integer (value : Int)
  | real (bits : UInt64)
  | string (value : String)
  | sequence
  | map
  deriving DecidableEq

inductive Mismatch
  | wrongKind (found : Found) (expected : String)
  | unknownVariant (name : String) (variants : List String)
  | missingField (name : String)
  | duplicateField (name : String)
  | wrongLength (length : Nat) (record : String) (fields : Nat)
  deriving DecidableEq

inductive Fault
  | malformed
  | unfinished
  | mismatch (cause : Mismatch)
  deriving DecidableEq

def Found.text : Found → String
  | .null => "null"
  | .boolean b => "boolean `" ++ toString b ++ "`"
  | .integer i => "integer `" ++ toString i ++ "`"
  | .real bits => "floating point `" ++ Decimal.Layout.json.text bits ++ "`"
  | .string s => "string " ++ Text.quoteString s
  | .sequence => "sequence"
  | .map => "map"

def quotedNames (names : List String) : String :=
  ", ".intercalate (names.map fun n => "`" ++ n ++ "`")

def Mismatch.message : Mismatch → String
  | .wrongKind found expected => "invalid type: " ++ found.text ++ ", expected " ++ expected
  | .unknownVariant name variants =>
    "unknown variant `" ++ name ++ "`, expected one of " ++ quotedNames variants
  | .missingField name => "missing field `" ++ name ++ "`"
  | .duplicateField name => "duplicate field `" ++ name ++ "`"
  | .wrongLength n record k =>
    "invalid length " ++ toString n ++ ", expected struct " ++ record ++ " with "
      ++ toString k ++ " elements"

end HotSwap.Json
