/-! # Text in bytes

A file holds bytes. They are read as UTF-8, where each longest beginning of a character that breaks
off counts as one fault. The reading is strict, when every byte must belong to a character, or
lenient, when a replacement character stands for each fault.
-/

namespace DepAtlas.Text

/-- How many bytes follow the first byte of a character, and the range of the next one. -/
def lead? (b : UInt8) : Option (Nat × UInt8 × UInt8) :=
  if b < 0x80 then some (0, 0, 0)
  else if b < 0xC2 then none
  else if b < 0xE0 then some (1, 0x80, 0xBF)
  else if b = 0xE0 then some (2, 0xA0, 0xBF)
  else if b = 0xED then some (2, 0x80, 0x9F)
  else if b < 0xF0 then some (2, 0x80, 0xBF)
  else if b = 0xF0 then some (3, 0x90, 0xBF)
  else if b < 0xF4 then some (3, 0x80, 0xBF)
  else if b = 0xF4 then some (3, 0x80, 0x8F)
  else none

/-- The leading bits that a first byte with `n` followers gives to its character. -/
def leadBits (n : Nat) (b : UInt8) : Nat :=
  if n = 0 then b.toNat else if n = 1 then b.toNat % 32 else if n = 2 then b.toNat % 16
  else b.toNat % 8

/-- How many of the next bytes belong to a character that needs `n` more, and the value it has if
all of them are there. -/
def followers : Nat → UInt8 → UInt8 → Nat → List UInt8 → Nat × Option Nat
  | 0, _, _, value, _ => (0, some value)
  | _ + 1, _, _, _, [] => (0, none)
  | n + 1, lo, hi, value, b :: bs =>
    if lo ≤ b && b ≤ hi then
      let (taken, result) := followers n 0x80 0xBF (value * 64 + b.toNat % 64) bs
      (taken + 1, result)
    else (0, none)

/-- The first character, or none if it is broken, and how many bytes after the first belong to it. -/
def character (b : UInt8) (bs : List UInt8) : Option Char × Nat :=
  match lead? b with
  | none => (none, 0)
  | some (n, lo, hi) =>
    let (taken, value) := followers n lo hi (leadBits n b) bs
    (value.map Char.ofNat, taken)

/-- The characters that the bytes spell, with none for each fault. -/
def characters : List UInt8 → List (Option Char)
  | [] => []
  | b :: bs => (character b bs).1 :: characters (bs.drop (character b bs).2)
  termination_by bs => bs.length
  decreasing_by simp only [List.length_drop, List.length_cons]; omega

/-- The bytes of a text. -/
def encode (s : String) : List UInt8 := s.toUTF8.toList

/-- The text that the bytes spell, if they spell one. -/
def decode? (bytes : List UInt8) : Option String :=
  ((characters bytes).mapM id).map String.ofList

/-- The text that the bytes spell, with a replacement character for each fault. -/
def decodeLenient (bytes : List UInt8) : String :=
  String.ofList ((characters bytes).map (·.getD '\ufffd'))

end DepAtlas.Text
