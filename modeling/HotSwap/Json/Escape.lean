/-!
# Escapes in JSON strings

The characters that have a letter of their own behind a backslash. A slash may be escaped as well,
but is never written so.
-/

namespace HotSwap.Json

def escapeLetters : List (Char × Char) :=
  [('"', '"'), ('\\', '\\'), ('\x08', 'b'), ('\x0c', 'f'), ('\n', 'n'), ('\r', 'r'), ('\t', 't')]

def escapeLetter? (c : Char) : Option Char :=
  (escapeLetters.find? fun e => e.1 == c).map Prod.snd

def escapedBy? (letter : Char) : Option Char :=
  if letter = '/' then some '/' else (escapeLetters.find? fun e => e.2 == letter).map Prod.fst

theorem escapedBy?_escapeLetter? : ∀ e ∈ escapeLetters, (escapeLetter? e.1).bind escapedBy? = some e.1 := by
  decide

end HotSwap.Json
