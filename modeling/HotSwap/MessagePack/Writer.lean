/-!
# Writing MessagePack

Every value is written with the shortest header that holds its length.
-/

namespace HotSwap.MessagePack

def byte (n : Nat) : UInt8 := UInt8.ofNat n

def big16 (n : Nat) : List UInt8 := [byte (n / 0x100), byte n]

def big32 (n : Nat) : List UInt8 :=
  [byte (n / 0x1000000), byte (n / 0x10000), byte (n / 0x100), byte n]

def utf8 (s : String) : List UInt8 := s.toUTF8.data.toList

def stringHeader (n : Nat) : List UInt8 :=
  if n < 32 then [byte (0xa0 + n)]
  else if n < 0x100 then [0xd9, byte n]
  else if n < 0x10000 then 0xda :: big16 n
  else 0xdb :: big32 n

def string (s : String) : List UInt8 := stringHeader (utf8 s).length ++ utf8 s

def arrayHeader (n : Nat) : List UInt8 :=
  if n < 16 then [byte (0x90 + n)]
  else if n < 0x10000 then 0xdc :: big16 n
  else 0xdd :: big32 n

def mapHeader (n : Nat) : List UInt8 :=
  if n < 16 then [byte (0x80 + n)]
  else if n < 0x10000 then 0xde :: big16 n
  else 0xdf :: big32 n

def array (items : List (List UInt8)) : List UInt8 := arrayHeader items.length ++ items.flatten

def strings (ss : List String) : List UInt8 := array (ss.map string)

def field (key : String) (value : List UInt8) : List UInt8 := string key ++ value

def map (fields : List (List UInt8)) : List UInt8 := mapHeader fields.length ++ fields.flatten

end HotSwap.MessagePack
