/-!
# Texts from UTF-8 bytes

Reads bytes as characters by the table of well-formed sequences: each lead byte fixes how many
bytes follow it and, for the first of them, in which range it lies.

Main definitions:

* `Utf8.Fault` — where and how bytes fail to be a text;
* `Utf8.decode` — the characters of a list of bytes.

A sequence is at fault at its first byte that cannot stand there.  The length of the fault is the
number of bytes before that one, at least one; bytes that end inside a sequence are incomplete.
-/

namespace Equilibria

namespace Utf8

/-- Why bytes are no text. -/
inductive Fault where
  /-- `length` bytes from `index` on begin no character. -/
  | malformed (length index : Nat)
  /-- The bytes end inside the character that begins at `index`. -/
  | incomplete (index : Nat)
  deriving Repr, DecidableEq

/-- The words for a fault. -/
def Fault.message : Fault → String
  | .malformed length index =>
    "invalid utf-8 sequence of " ++ toString length ++ " bytes from index " ++ toString index
  | .incomplete index => "incomplete utf-8 byte sequence from index " ++ toString index

/-- How many bytes a character has, by its first byte; none if no character begins so. -/
def width? (b : Nat) : Option Nat :=
  if b < 0x80 then some 1
  else if 0xC2 ≤ b ∧ b ≤ 0xDF then some 2
  else if 0xE0 ≤ b ∧ b ≤ 0xEF then some 3
  else if 0xF0 ≤ b ∧ b ≤ 0xF4 then some 4
  else none

/-- Whether a byte continues a character. -/
def continues (b : Nat) : Bool := 0x80 ≤ b && b ≤ 0xBF

/-- Whether a second byte may follow the first one: no overlong forms, no surrogates, nothing past
the last code point. -/
def mayFollow (first second : Nat) : Bool :=
  if first = 0xE0 then 0xA0 ≤ second && second ≤ 0xBF
  else if first = 0xED then 0x80 ≤ second && second ≤ 0x9F
  else if first = 0xF0 then 0x90 ≤ second && second ≤ 0xBF
  else if first = 0xF4 then 0x80 ≤ second && second ≤ 0x8F
  else continues second

/-- The characters of the bytes from position `index` on. -/
def decodeFrom (index : Nat) : List Nat → Except Fault (List Char)
  | [] => .ok []
  | a :: rest =>
    match width? a with
    | none => .error (.malformed 1 index)
    | some 1 => (decodeFrom (index + 1) rest).map (Char.ofNat a :: ·)
    | some 2 =>
      match rest with
      | [] => .error (.incomplete index)
      | b :: rest =>
        if !mayFollow a b then .error (.malformed 1 index)
        else (decodeFrom (index + 2) rest).map (Char.ofNat (64 * (a - 0xC0) + (b - 0x80)) :: ·)
    | some 3 =>
      match rest with
      | [] => .error (.incomplete index)
      | [b] =>
        if !mayFollow a b then .error (.malformed 1 index) else .error (.incomplete index)
      | b :: c :: rest =>
        if !mayFollow a b then .error (.malformed 1 index)
        else if !continues c then .error (.malformed 2 index)
        else
          (decodeFrom (index + 3) rest).map
            (Char.ofNat (4096 * (a - 0xE0) + 64 * (b - 0x80) + (c - 0x80)) :: ·)
    | some _ =>
      match rest with
      | [] => .error (.incomplete index)
      | [b] =>
        if !mayFollow a b then .error (.malformed 1 index) else .error (.incomplete index)
      | [b, c] =>
        if !mayFollow a b then .error (.malformed 1 index)
        else if !continues c then .error (.malformed 2 index)
        else .error (.incomplete index)
      | b :: c :: d :: rest =>
        if !mayFollow a b then .error (.malformed 1 index)
        else if !continues c then .error (.malformed 2 index)
        else if !continues d then .error (.malformed 3 index)
        else
          (decodeFrom (index + 4) rest).map
            (Char.ofNat (262144 * (a - 0xF0) + 4096 * (b - 0x80) + 64 * (c - 0x80) + (d - 0x80)) ::
              ·)

/-- The text of a list of bytes. -/
def decode (bytes : List UInt8) : Except Fault String :=
  (decodeFrom 0 (bytes.map UInt8.toNat)).map String.ofList

end Utf8

end Equilibria
