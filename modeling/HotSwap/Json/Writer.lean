import HotSwap.Json.Basic
import HotSwap.Json.Escape
/-!
# Compact JSON text

No blanks, members as they are listed, and in strings only what JSON forbids is escaped: quotes,
backslashes and the characters below the space.
-/

namespace HotSwap.Json

def hexDigit (n : Nat) : Char :=
  let d := n % 16
  if d < 10 then Char.ofNat (48 + d) else Char.ofNat (87 + d)

def escape (c : Char) : List Char :=
  match escapeLetter? c with
  | some letter => ['\\', letter]
  | none =>
    if c.toNat < 32 then ['\\', 'u', '0', '0', hexDigit (c.toNat / 16), hexDigit c.toNat] else [c]

def quoted (s : String) : List Char := '"' :: (s.toList.flatMap escape ++ ['"'])

def separated : List (List Char) → List Char
  | [] => []
  | [x] => x
  | x :: y :: rest => x ++ ',' :: separated (y :: rest)

def bracketed (items : List (List Char)) : List Char := '[' :: (separated items ++ [']'])

def field (key : String) (value : List Char) : List Char := quoted key ++ ':' :: value

def braced (fields : List (List Char)) : List Char := '{' :: (separated fields ++ ['}'])

def strings (ss : List String) : List Char := bracketed (ss.map quoted)

mutual

def compact : Json → List Char
  | .null => ['n', 'u', 'l', 'l']
  | .bool true => ['t', 'r', 'u', 'e']
  | .bool false => ['f', 'a', 'l', 's', 'e']
  | .number n => n.text.toList
  | .string s => quoted s
  | .array items => bracketed (compactItems items)
  | .object members => braced (compactMembers members)

def compactItems : List Json → List (List Char)
  | [] => []
  | j :: rest => compact j :: compactItems rest

def compactMembers : List (String × Json) → List (List Char)
  | [] => []
  | (k, j) :: rest => field k (compact j) :: compactMembers rest

end

def text (j : Json) : String := String.ofList j.compact

/-- Strings as they are, all else as compact text. -/
def plain : Json → String
  | .string s => s
  | j => j.text

end HotSwap.Json
