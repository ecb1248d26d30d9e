import HotSwap.Json.Escape
import HotSwap.Json.Fault
/-!
# Reading JSON text

A `Reader` takes a value off the front of a text and leaves the rest, or reports the first fault.
Fuel bounds the readers that loop; the length of the text is always enough, since every turn takes
at least one character.
-/

namespace HotSwap.Json

abbrev Reader := StateT (List Char) (Except Fault)

namespace Reader

def fail (f : Fault) : Reader α := fun _ => .error f

def isBlank (c : Char) : Bool := c == ' ' || c == '\n' || c == '\t' || c == '\r'

def skipBlanks (cs : List Char) : List Char := cs.dropWhile isBlank

/-- First character after blanks, which are taken; it stays. -/
def peek : Reader (Option Char) := fun cs => let r := skipBlanks cs; .ok (r.head?, r)

def advance : Reader Unit := fun cs => .ok ((), cs.tail)

def exactly : List Char → Reader Unit
  | [] => pure ()
  | e :: es => fun
    | [] => .error .unfinished
    | c :: cs => if c = e then exactly es cs else .error .malformed

def isDigit (c : Char) : Bool := '0' ≤ c && c ≤ '9'

def digitValue (c : Char) : Nat := c.toNat - 48

def hexValue? (c : Char) : Option Nat :=
  if isDigit c then some (c.toNat - 48)
  else if 'a' ≤ c && c ≤ 'f' then some (c.toNat - 87)
  else if 'A' ≤ c && c ≤ 'F' then some (c.toNat - 55)
  else none

def byteLength (cs : List Char) : Nat := cs.foldl (fun n c => n + c.utf8Size) 0

/-- Where a scan inside a string stands. `hex high n v` has seen `n` of four digits, with value
`v`, after `\u`; `high` is the first half of a surrogate pair whose second half is being read. -/
inductive Place
  | plain
  | escape
  | hex (high : Option Nat) (seen : Nat) (value : Nat)
  | second (high : Nat)
  | secondU (high : Nat)
  deriving DecidableEq

inductive Quad
  | char (c : Char)
  | high (value : Nat)
  | lone

def Quad.of (high : Option Nat) (n : Nat) : Quad :=
  let low := 0xdc00 ≤ n && n ≤ 0xdfff
  match high with
  | some h => if low then .char (Char.ofNat ((h - 0xd800) * 0x400 + (n - 0xdc00) + 0x10000)) else .lone
  | none =>
    if low then .lone
    else if 0xd800 ≤ n && n ≤ 0xdbff then .high n
    else .char (Char.ofNat n)

def push (c : Char) : Except Fault (List Char × List Char) → Except Fault (List Char × List Char)
  | .ok (s, rest) => .ok (c :: s, rest)
  | .error f => .error f

/-- A digit is missing: the text is too short only if it does not hold four more bytes. -/
def badHex (seen : Nat) (rest : List Char) : Fault :=
  if seen + byteLength rest < 4 then .unfinished else .malformed

def scan : Place → Reader (List Char)
  | _, [] => .error .unfinished
  | .plain, c :: cs =>
    if c = '"' then .ok ([], cs)
    else if c = '\\' then scan .escape cs
    else if c.toNat < 32 then .error .malformed
    else push c (scan .plain cs)
  | .escape, c :: cs =>
    match escapedBy? c with
    | some d => push d (scan .plain cs)
    | none => if c = 'u' then scan (.hex none 0 0) cs else .error .malformed
  | .hex high n v, c :: cs =>
    match hexValue? c with
    | none => .error (badHex n (c :: cs))
    | some d =>
      if n < 3 then scan (.hex high (n + 1) (16 * v + d)) cs
      else match Quad.of high (16 * v + d) with
        | .char x => push x (scan .plain cs)
        | .high h => scan (.second h) cs
        | .lone => .error .malformed
  | .second h, c :: cs => if c = '\\' then scan (.secondU h) cs else .error .malformed
  | .secondU h, c :: cs => if c = 'u' then scan (.hex (some h) 0 0) cs else .error .malformed

/-- Passes over the inside of a string. Surrogates need not be paired. -/
def skipScan : Place → Reader Unit
  | _, [] => .error .unfinished
  | .escape, c :: cs =>
    if (escapedBy? c).isSome then skipScan .plain cs
    else if c = 'u' then skipScan (.hex none 0 0) cs
    else .error .malformed
  | .hex high n v, c :: cs =>
    match hexValue? c with
    | none => .error (badHex n (c :: cs))
    | some _ => if n < 3 then skipScan (.hex high (n + 1) v) cs else skipScan .plain cs
  | _, c :: cs =>
    if c = '"' then .ok ((), cs)
    else if c = '\\' then skipScan .escape cs
    else if c.toNat < 32 then .error .malformed
    else skipScan .plain cs

def stringTail : Reader String := return String.ofList (← scan .plain)

def dropDigits (cs : List Char) : List Char := cs.dropWhile isDigit

def skipDigits : Reader Unit
  | c :: cs => if isDigit c then .ok ((), dropDigits cs) else .error .malformed
  | [] => .error .malformed

def skipExponent : Reader Unit
  | '+' :: cs => skipDigits cs
  | '-' :: cs => skipDigits cs
  | cs => skipDigits cs

def skipFraction : Reader Unit
  | '.' :: cs => do
    let (_, rest) ← skipDigits cs
    match rest with
    | 'e' :: r => skipExponent r
    | 'E' :: r => skipExponent r
    | r => .ok ((), r)
  | 'e' :: cs => skipExponent cs
  | 'E' :: cs => skipExponent cs
  | cs => .ok ((), cs)

def skipNumber : Reader Unit
  | '0' :: c :: cs => if isDigit c then .error .malformed else skipFraction (c :: cs)
  | c :: cs => if isDigit c then skipFraction (dropDigits cs) else .error .malformed
  | [] => .error .malformed

mutual

def skipValue : Nat → Reader Unit
  | 0 => fail .malformed
  | fuel + 1 => do
    match ← peek with
    | none => fail .unfinished
    | some c =>
      if c = 'n' then advance; exactly ['u', 'l', 'l']
      else if c = 't' then advance; exactly ['r', 'u', 'e']
      else if c = 'f' then advance; exactly ['a', 'l', 's', 'e']
      else if c = '"' then advance; skipScan .plain
      else if c = '-' then advance; skipNumber
      else if isDigit c then skipNumber
      else if c = '[' then advance; skipItems fuel true
      else if c = '{' then advance; skipMembers fuel true
      else fail .malformed

def skipItems : Nat → Bool → Reader Unit
  | 0, _ => fail .malformed
  | fuel + 1, first => do
    match ← peek with
    | none => fail .unfinished
    | some c =>
      if c = ']' then advance
      else if first then skipValue fuel; skipItems fuel false
      else if c = ',' then advance; skipValue fuel; skipItems fuel false
      else fail .malformed

def skipMembers : Nat → Bool → Reader Unit
  | 0, _ => fail .malformed
  | fuel + 1, first => do
    match ← peek with
    | none => fail .unfinished
    | some c =>
      if c = '}' then advance
      else if first then skipMember fuel; skipMembers fuel false
      else if c = ',' then advance; skipMember fuel; skipMembers fuel false
      else fail .malformed

def skipMember : Nat → Reader Unit
  | 0 => fail .malformed
  | fuel + 1 => do
    match ← peek with
    | none => fail .unfinished
    | some c =>
      if c = '"' then
        advance
        skipScan .plain
        match ← peek with
        | none => fail .unfinished
        | some d => if d = ':' then advance; skipValue fuel else fail .malformed
      else fail .malformed

end

def skip : Reader Unit := fun cs => skipValue (3 * cs.length + 3) cs

end Reader

end HotSwap.Json
