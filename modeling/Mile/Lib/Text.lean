/-
  Mile.Lib.Text
  ─────────────
  **TEXT AS BYTES AND AS 16-BIT CHARACTERS.**

  In UTF-8 a character is one to four bytes (`String.utf8EncodeChar`); in UTF-16 it
  is one 16-bit character, or a pair of surrogates.  A decoder takes one character
  after the other from the front of the bytes.
-/
import Mile.Lib.LittleEndian

namespace Mile.Lib

open List

/-! ## §1. The encodings. -/

def utf16Char (c : Char) : List UInt16 :=
  let n := c.toNat
  if n < 0x10000 then [UInt16.ofNat n]
  else [UInt16.ofNat (0xd800 + (n - 0x10000) / 1024), UInt16.ofNat (0xdc00 + (n - 0x10000) % 1024)]

/-! ## §2. The decoder. -/

def firstChar? (bs : Bytes) : Option Char := bs.toByteArray.utf8DecodeChar? 0

/-- The 16-bit characters of some bytes; `fuel` bounds their number, and `malformed`
tells what becomes of a rest that does not start with a character. -/
def decodeFrom (malformed : Bytes → List UInt16) : Nat → Bytes → List UInt16
  | 0, _ => []
  | _ + 1, [] => []
  | fuel + 1, bs =>
    match firstChar? bs with
    | some c => utf16Char c ++ decodeFrom malformed fuel (bs.drop c.utf8Size)
    | none => malformed bs

/-- A character has at least one byte, so that the bytes themselves bound the steps. -/
def decodeText (malformed : Bytes → List UInt16) (bs : Bytes) : List UInt16 :=
  decodeFrom malformed bs.length bs

end Mile.Lib
