set_option autoImplicit false

/-! # UTF-8

`decode` gives the characters that a list of bytes encodes, or says where the bytes stop being
UTF-8: at a byte that begins no character, at one that does not continue the character before
it, or at the end in the middle of a character. Encodings that are too long, surrogates and
numbers beyond the last character are refused at the second byte.
-/

namespace SchemeFront.Text

/-- Why bytes are not UTF-8. -/
inductive Utf8Reason where
  | start
  | continuation
  | ended
deriving DecidableEq

/-- Bytes that encode no character, those with the indices from `first` up to `last`. -/
structure Utf8Error where
  /-- The value of the first of these bytes. -/
  byte : Nat
  first : Nat
  last : Nat
  reason : Utf8Reason
deriving DecidableEq

/-- A character of which more bytes must come. -/
structure Partial where
  /-- The first byte. -/
  byte : Nat
  /-- How many bytes were read. -/
  count : Nat
  /-- How many must come. -/
  missing : Nat
  /-- The bounds of the next byte. -/
  low : Nat
  high : Nat
  /-- The bits so far. -/
  value : Nat
deriving DecidableEq

/-- The character that begins with a byte from 0x80 on. -/
def beginning? (byte : Nat) : Option Partial :=
  if byte < 0xC2 then none
  else if byte < 0xE0 then some ⟨byte, 1, 1, 0x80, 0xBF, byte - 0xC0⟩
  else if byte = 0xE0 then some ⟨byte, 1, 2, 0xA0, 0xBF, 0⟩
  else if byte = 0xED then some ⟨byte, 1, 2, 0x80, 0x9F, 0xD⟩
  else if byte < 0xF0 then some ⟨byte, 1, 2, 0x80, 0xBF, byte - 0xE0⟩
  else if byte = 0xF0 then some ⟨byte, 1, 3, 0x90, 0xBF, 0⟩
  else if byte < 0xF4 then some ⟨byte, 1, 3, 0x80, 0xBF, byte - 0xF0⟩
  else if byte = 0xF4 then some ⟨byte, 1, 3, 0x80, 0x8F, 4⟩
  else none

/-- The characters of the bytes from the index `index` on, which follow those of an unfinished
character, if there is one. -/
def decodeFrom : (index : Nat) → Option Partial → List Nat → Except Utf8Error (List Char)
  | _, none, [] => .ok []
  | index, some p, [] => .error ⟨p.byte, index - p.count, index - 1, .ended⟩
  | index, none, b :: bs =>
      if b < 0x80 then (decodeFrom (index + 1) none bs).map (Char.ofNat b :: ·)
      else match beginning? b with
        | none => .error ⟨b, index, index, .start⟩
        | some p => decodeFrom (index + 1) (some p) bs
  | index, some p, b :: bs =>
      if b < p.low ∨ p.high < b then
        .error ⟨p.byte, index - p.count, index - 1, .continuation⟩
      else
        let value := 64 * p.value + (b - 0x80)
        if p.missing ≤ 1 then (decodeFrom (index + 1) none bs).map (Char.ofNat value :: ·)
        else
          let next := ⟨p.byte, p.count + 1, p.missing - 1, 0x80, 0xBF, value⟩
          decodeFrom (index + 1) (some next) bs

/-- The characters that bytes encode. -/
def decode (bytes : List Nat) : Except Utf8Error (List Char) := decodeFrom 0 none bytes

/-- One convention for the ends of lines: a carriage return, alone or before a newline, becomes a
newline. -/
def normalizeNewlines : List Char → List Char
  | [] => []
  | '\r' :: '\n' :: cs => '\n' :: normalizeNewlines cs
  | '\r' :: cs => '\n' :: normalizeNewlines cs
  | c :: cs => c :: normalizeNewlines cs

end SchemeFront.Text
