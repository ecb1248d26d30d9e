import Mathlib.Data.List.Forall2
import HotSwap.Json.Reader
/-!
# What a JSON text may look like

The grammar of values, as predicates on texts: blanks may stand around every value, member and mark,
and a string may spell a character as itself or by an escape.
-/

namespace HotSwap.Json

def Blanks (cs : List Char) : Prop := ∀ c ∈ cs, c ∈ [' ', '\n', '\t', '\r']

instance (cs : List Char) : Decidable (Blanks cs) :=
  List.decidableBAll (fun c => c ∈ [' ', '\n', '\t', '\r']) cs

def namedEscapes : List (Char × Char) :=
  [('"', '"'), ('\\', '\\'), ('/', '/'), ('\x08', 'b'), ('\x0c', 'f'), ('\n', 'n'), ('\r', 'r'),
    ('\t', 't')]

def hexDigits : List (Char × Nat) :=
  [('0', 0), ('1', 1), ('2', 2), ('3', 3), ('4', 4), ('5', 5), ('6', 6), ('7', 7), ('8', 8),
    ('9', 9), ('a', 10), ('b', 11), ('c', 12), ('d', 13), ('e', 14), ('f', 15),
    ('A', 10), ('B', 11), ('C', 12), ('D', 13), ('E', 14), ('F', 15)]

inductive Code : Nat → List Char → Prop
  | digits {a b c d : Char} {w x y z : Nat} (ha : (a, w) ∈ hexDigits) (hb : (b, x) ∈ hexDigits)
    (hc : (c, y) ∈ hexDigits) (hd : (d, z) ∈ hexDigits) :
    Code (16 * (16 * (16 * w + x) + y) + z) [a, b, c, d]

def IsHigh (n : Nat) : Prop := 0xd800 ≤ n ∧ n ≤ 0xdbff

def IsLow (n : Nat) : Prop := 0xdc00 ≤ n ∧ n ≤ 0xdfff

def IsPlain (c : Char) : Prop := 32 ≤ c.toNat ∧ c ≠ '"' ∧ c ≠ '\\'

instance (c : Char) : Decidable (IsPlain c) := inferInstanceAs (Decidable (_ ∧ _))

def Plain (cs : List Char) : Prop := ∀ c ∈ cs, IsPlain c

instance (cs : List Char) : Decidable (Plain cs) := List.decidableBAll IsPlain cs

inductive Literal : List Char → Prop
  | nil : Literal []
  | plain {c : Char} {raw : List Char} (hc : IsPlain c) (h : Literal raw) : Literal (c :: raw)
  | named {c d : Char} {raw : List Char} (hc : (c, d) ∈ namedEscapes) (h : Literal raw) :
    Literal ('\\' :: d :: raw)
  | code {n : Nat} {cs raw : List Char} (hn : Code n cs) (h : Literal raw) :
    Literal ('\\' :: 'u' :: (cs ++ raw))

/-- What stands between two quotes, with the characters it stands for. Surrogates come in pairs. -/
inductive Spelled : List Char → List Char → Prop
  | nil : Spelled [] []
  | plain {c : Char} {s raw : List Char} (hc : IsPlain c) (h : Spelled s raw) :
    Spelled (c :: s) (c :: raw)
  | named {c d : Char} {s raw : List Char} (hc : (c, d) ∈ namedEscapes) (h : Spelled s raw) :
    Spelled (c :: s) ('\\' :: d :: raw)
  | code {n : Nat} {cs s raw : List Char} (hn : Code n cs) (hhigh : ¬IsHigh n) (hlow : ¬IsLow n)
    (h : Spelled s raw) : Spelled (Char.ofNat n :: s) ('\\' :: 'u' :: (cs ++ raw))
  | pair {m n : Nat} {cs ds s raw : List Char} (hm : Code m cs) (hhigh : IsHigh m) (hn : Code n ds)
    (hlow : IsLow n) (h : Spelled s raw) :
    Spelled (Char.ofNat ((m - 0xd800) * 0x400 + (n - 0xdc00) + 0x10000) :: s)
      ('\\' :: 'u' :: (cs ++ '\\' :: 'u' :: (ds ++ raw)))

theorem Spelled.literal {s raw : List Char} (h : Spelled s raw) : Literal raw := by
  induction h with
  | nil => exact .nil
  | plain hc _ ih => exact .plain hc ih
  | named hc _ ih => exact .named hc ih
  | code hn _ _ _ ih => exact .code hn ih
  | pair hm _ hn _ _ ih => exact .code hm (.code hn ih)

theorem spelled_plain {s : List Char} (h : Plain s) : Spelled s s := by
  induction s with
  | nil => exact .nil
  | cons c s ih =>
    obtain ⟨hc, hs⟩ := List.forall_mem_cons.1 h
    exact .plain hc (ih hs)

def inQuotes (raw : List Char) : List Char := '"' :: (raw ++ ['"'])

def Quotes (s : String) (cs : List Char) : Prop := ∃ raw, Spelled s.toList raw ∧ cs = inQuotes raw

def Digits (cs : List Char) : Prop := cs ≠ [] ∧ ∀ c ∈ cs, '0' ≤ c ∧ c ≤ '9'

instance (cs : List Char) : Decidable (Digits cs) :=
  @instDecidableAnd _ _ _ (List.decidableBAll (fun c => '0' ≤ c ∧ c ≤ '9') cs)

def Integral (cs : List Char) : Prop := Digits cs ∧ (cs.head? = some '0' → cs = ['0'])

inductive Fraction : List Char → Prop
  | none : Fraction []
  | some {ds : List Char} (h : Digits ds) : Fraction ('.' :: ds)

inductive Exponent : List Char → Prop
  | none : Exponent []
  | plain {e : Char} {ds : List Char} (he : e ∈ ['e', 'E']) (h : Digits ds) : Exponent (e :: ds)
  | signed {e s : Char} {ds : List Char} (he : e ∈ ['e', 'E']) (hs : s ∈ ['+', '-'])
    (h : Digits ds) : Exponent (e :: s :: ds)

inductive Numeral : List Char → Prop
  | parts {int frac exp : List Char} (hi : Integral int) (hf : Fraction frac) (he : Exponent exp) :
    Numeral (int ++ (frac ++ exp))

/-- Items up to and with the mark that closes them, with commas between them. Of the later ones each
has a comma in front. -/
inductive Listing (close : Char) : Bool → List (List Char) → List Char → Prop
  | nil {first : Bool} {b : List Char} (hb : Blanks b) : Listing close first [] (b ++ [close])
  | first {b t cs : List Char} {ts : List (List Char)} (hb : Blanks b)
    (h : Listing close false ts cs) : Listing close true (t :: ts) (b ++ (t ++ cs))
  | later {b b' t cs : List Char} {ts : List (List Char)} (hb : Blanks b) (hb' : Blanks b')
    (h : Listing close false ts cs) : Listing close false (t :: ts) (b ++ ',' :: (b' ++ (t ++ cs)))

def InBrackets (ts : List (List Char)) (cs : List Char) : Prop :=
  ∃ ds, Listing ']' true ts ds ∧ cs = '[' :: ds

def InBraces (ts : List (List Char)) (cs : List Char) : Prop :=
  ∃ ds, Listing '}' true ts ds ∧ cs = '{' :: ds

inductive MemberText (raw v : List Char) : List Char → Prop
  | parts {b b' : List Char} (hb : Blanks b) (hb' : Blanks b') :
    MemberText raw v ('"' :: (raw ++ '"' :: (b ++ ':' :: (b' ++ v))))

inductive Wellformed : List Char → Prop
  | null : Wellformed ['n', 'u', 'l', 'l']
  | yes : Wellformed ['t', 'r', 'u', 'e']
  | no : Wellformed ['f', 'a', 'l', 's', 'e']
  | string {raw : List Char} (h : Literal raw) : Wellformed (inQuotes raw)
  | number {cs : List Char} (h : Numeral cs) : Wellformed cs
  | negative {cs : List Char} (h : Numeral cs) : Wellformed ('-' :: cs)
  | array {ts : List (List Char)} {cs : List Char} (h : ∀ t ∈ ts, Wellformed t)
    (hcs : InBrackets ts cs) : Wellformed cs
  | object {ms : List (List Char × List Char)} {ts : List (List Char)} {cs : List Char}
    (hk : ∀ m ∈ ms, Literal m.1) (h : ∀ m ∈ ms, Wellformed m.2)
    (ht : List.Forall₂ (fun m t => MemberText m.1 m.2 t) ms ts) (hcs : InBraces ts cs) :
    Wellformed cs

def Object (ms : List (String × List Char)) (cs : List Char) : Prop :=
  ∃ ts, List.Forall₂ (fun m t => ∃ raw, Spelled m.1.toList raw ∧ MemberText raw m.2 t) ms ts ∧
    InBraces ts cs

def ArrayOf {α : Type} (writes : α → List Char → Prop) (xs : List α) (cs : List Char) : Prop :=
  ∃ ts, List.Forall₂ writes xs ts ∧ InBrackets ts cs

end HotSwap.Json
