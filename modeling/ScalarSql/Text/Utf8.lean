/-!
# Bytes and text

Text becomes bytes by UTF-8. Bytes become text with the replacement character U+FFFD in place of
each longest sequence of bytes that starts a character but does not complete it, and of each byte
that starts none.
-/

namespace ScalarSql.Text

def toBytes (s : String) : List UInt8 := s.toList.flatMap String.utf8EncodeChar

def isTail (b : UInt8) : Bool := 0x80 ≤ b && b ≤ 0xBF

/-- How a sequence of bytes goes on after a first byte. -/
inductive Lead where
  /-- The byte is a character by itself. -/
  | single
  /-- One more byte follows. -/
  | two
  /-- Two more bytes follow, the first of them in the given range. -/
  | three (low high : UInt8)
  /-- Three more bytes follow, the first of them in the given range. -/
  | four (low high : UInt8)
  /-- No character starts with the byte. -/
  | invalid
deriving DecidableEq, Repr

/-- What a first byte announces. -/
def lead (b : UInt8) : Lead :=
  if b < 0x80 then .single
  else if b < 0xC2 then .invalid
  else if b < 0xE0 then .two
  else if b = 0xE0 then .three 0xA0 0xBF
  else if b = 0xED then .three 0x80 0x9F
  else if b < 0xF0 then .three 0x80 0xBF
  else if b = 0xF0 then .four 0x90 0xBF
  else if b < 0xF4 then .four 0x80 0xBF
  else if b = 0xF4 then .four 0x80 0x8F
  else .invalid

def replacement : Char := Char.ofNat 0xFFFD

def tailBits (b : UInt8) : Nat := b.toNat % 64

/-- Reads the bytes after the first one: the character, and how many of them belong to it or to the
invalid sequence. -/
def readTail (b : UInt8) (rest : List UInt8) : Char × Nat :=
  match lead b, rest with
  | .single, _ => (Char.ofNat b.toNat, 0)
  | .invalid, _ => (replacement, 0)
  | .two, c :: _ =>
    if isTail c then (Char.ofNat (b.toNat % 32 * 64 + tailBits c), 1) else (replacement, 0)
  | .two, [] => (replacement, 0)
  | .three low high, c :: d =>
    if low ≤ c && c ≤ high then
      match d with
      | d :: _ =>
        if isTail d then
          (Char.ofNat (b.toNat % 16 * 4096 + tailBits c * 64 + tailBits d), 2)
        else (replacement, 1)
      | [] => (replacement, 1)
    else (replacement, 0)
  | .three .., [] => (replacement, 0)
  | .four low high, c :: d =>
    if low ≤ c && c ≤ high then
      match d with
      | d :: f =>
        if isTail d then
          match f with
          | f :: _ =>
            if isTail f then
              (Char.ofNat (b.toNat % 8 * 262144 + tailBits c * 4096 + tailBits d * 64 + tailBits f), 3)
            else (replacement, 2)
          | [] => (replacement, 2)
        else (replacement, 1)
      | [] => (replacement, 1)
    else (replacement, 0)
  | .four .., [] => (replacement, 0)

/-- The characters of a byte sequence; `skip` bytes in front belong to the character before. -/
def decodeFrom : (skip : Nat) → List UInt8 → List Char
  | _, [] => []
  | skip + 1, _ :: rest => decodeFrom skip rest
  | 0, b :: rest =>
    let (c, used) := readTail b rest
    c :: decodeFrom used rest

def ofBytes (bytes : List UInt8) : String := String.ofList (decodeFrom 0 bytes)

end ScalarSql.Text
