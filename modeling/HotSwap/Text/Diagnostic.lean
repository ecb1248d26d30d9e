import HotSwap.Text.Unprintable
/-!
# Diagnostic text

How values show themselves to a developer: `Name { field: value }`, `Name(value)`, `Some(value)`,
strings in quotes with what cannot be seen spelled out.
-/

namespace HotSwap.Text

def spelledOut (c : Char) : String :=
  "\\u\x7b" ++ String.ofList (Nat.toDigits 16 c.toNat) ++ "\x7d"

def escapeChar (c : Char) : String :=
  if c = '"' then "\\\""
  else if c = '\\' then "\\\\"
  else if c = '\n' then "\\n"
  else if c = '\r' then "\\r"
  else if c = '\t' then "\\t"
  else if c.toNat = 0 then "\\0"
  else if isPrintable c then c.toString
  else spelledOut c

def quoteString (s : String) : String := "\"" ++ String.join (s.toList.map escapeChar) ++ "\""

def commaSeparated (items : List String) : String := ", ".intercalate items

def record (name : String) (fields : List (String × String)) : String :=
  let shown := fields.map fun f => f.1 ++ ": " ++ f.2
  name ++ " \x7b " ++ commaSeparated shown ++ " \x7d"

def tagged (name value : String) : String := name ++ "(" ++ value ++ ")"

def option : Option String → String
  | none => "None"
  | some s => tagged "Some" s

def optionalString (s : Option String) : String := option (s.map quoteString)

def sequence (items : List String) : String := "[" ++ commaSeparated items ++ "]"

def mapping (entries : List (String × String)) : String :=
  "\x7b" ++ commaSeparated (entries.map fun e => e.1 ++ ": " ++ e.2) ++ "\x7d"

end HotSwap.Text
