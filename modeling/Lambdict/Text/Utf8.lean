/-!
# UTF-8 texts

Program files are UTF-8. A file that is not is refused with the place and the reason of its first
fault: a byte that starts no character, a byte that cannot continue the character begun, or an end
of the file inside a character. The fault covers the bytes of the unfinished character that were in
order, and always at least its first one.

Line ends are then made uniform: a carriage return, alone or before a newline, counts as a newline.
-/

namespace Lambdict.Text.Utf8

/-- Why a sequence of bytes is no character. -/
inductive Reason
  | start
  | continuation
  | ended
deriving DecidableEq, Repr

/-- The reason in words. -/
def Reason.text : Reason → String
  | .start => "invalid start byte"
  | .continuation => "invalid continuation byte"
  | .ended => "unexpected end of data"

/-- The first fault of a file: the position and the value of the first byte at fault, how many
bytes are at fault, and why. -/
structure Fault where
  position : Nat
  byte : UInt8
  count : Nat
  reason : Reason
deriving DecidableEq, Repr

/-- Two hexadecimal digits for a byte. -/
def byteDigits (b : UInt8) : String :=
  let ds := Nat.toDigits 16 b.toNat
  String.ofList (List.replicate (2 - ds.length) '0' ++ ds)

/-- The fault in words: one byte is named by its value, several by their positions. -/
def Fault.message (f : Fault) : String :=
  let place :=
    if f.count = 1 then s!"byte 0x{byteDigits f.byte} in position {toString f.position}"
    else s!"bytes in position {toString f.position}-{toString (f.position + f.count - 1)}"
  s!"'utf-8' codec can't decode {place}: {f.reason.text}"

/-- How a character continues after its first byte: the bits the first byte gives, the range of the
second byte, and the number of plain continuation bytes after the second. -/
structure Lead where
  bits : Nat
  low : Nat
  high : Nat
  more : Nat
deriving DecidableEq, Repr

/-- What a byte of `0x80` or above begins, `none` when it begins nothing. The ranges of the second
byte leave out overlong forms, surrogates and numbers above `U+10FFFF`. -/
def lead? (b : UInt8) : Option Lead :=
  let n := b.toNat
  if 0xC2 ≤ n ∧ n ≤ 0xDF then some ⟨n - 0xC0, 0x80, 0xBF, 0⟩
  else if n = 0xE0 then some ⟨0, 0xA0, 0xBF, 1⟩
  else if n = 0xED then some ⟨0xD, 0x80, 0x9F, 1⟩
  else if 0xE1 ≤ n ∧ n ≤ 0xEF then some ⟨n - 0xE0, 0x80, 0xBF, 1⟩
  else if n = 0xF0 then some ⟨0, 0x90, 0xBF, 2⟩
  else if n = 0xF4 then some ⟨4, 0x80, 0x8F, 2⟩
  else if 0xF1 ≤ n ∧ n ≤ 0xF3 then some ⟨n - 0xF0, 0x80, 0xBF, 2⟩
  else none

/-- A character that is being read: its first byte and where it stands, how many of its bytes are
read, their bits, and what must follow. -/
structure Begun where
  position : Nat
  byte : UInt8
  count : Nat
  lead : Lead
deriving DecidableEq, Repr

/-- The fault of a character that breaks off. -/
def Begun.fault (p : Begun) (r : Reason) : Fault :=
  ⟨p.position, p.byte, p.count, r⟩

/-- Reads bytes one at a time from a position on, with the character begun if there is one. The
characters read so far are kept in reverse. -/
def decodeFrom : Nat → Option Begun → List Char → List UInt8 → Except Fault (List Char)
  | _, none, acc, [] => .ok acc.reverse
  | _, some p, _, [] => .error (p.fault .ended)
  | i, none, acc, b :: bs =>
    if b.toNat < 0x80 then decodeFrom (i + 1) none (Char.ofNat b.toNat :: acc) bs
    else
      match lead? b with
      | none => .error ⟨i, b, 1, .start⟩
      | some l => decodeFrom (i + 1) (some ⟨i, b, 1, l⟩) acc bs
  | i, some p, acc, b :: bs =>
    let n := b.toNat
    if p.lead.low ≤ n ∧ n ≤ p.lead.high then
      let bits := p.lead.bits * 0x40 + (n - 0x80)
      match p.lead.more with
      | 0 => decodeFrom (i + 1) none (Char.ofNat bits :: acc) bs
      | k + 1 =>
        decodeFrom (i + 1) (some ⟨p.position, p.byte, p.count + 1, bits, 0x80, 0xBF, k⟩) acc bs
    else .error (p.fault .continuation)

/-- The characters of a sequence of bytes, or its first fault. -/
def decode (bytes : List UInt8) : Except Fault (List Char) :=
  decodeFrom 0 none [] bytes

/-- Every line end as a newline. -/
def unifyLineEnds : List Char → List Char
  | [] => []
  | '\r' :: '\n' :: cs => '\n' :: unifyLineEnds cs
  | '\r' :: cs => '\n' :: unifyLineEnds cs
  | c :: cs => c :: unifyLineEnds cs

/-- The text of a program file. -/
def readText (bytes : List UInt8) : Except Fault String :=
  (decode bytes).map fun cs => String.ofList (unifyLineEnds cs)

/-- No carriage return is left in a text whose line ends are uniform. -/
theorem not_mem_unifyLineEnds (cs : List Char) : '\r' ∉ unifyLineEnds cs := by
  fun_induction unifyLineEnds cs with
  | case1 => simp
  | case2 cs ih => simpa using ih
  | case3 cs _ ih => simpa using ih
  | case4 c cs _ h ih =>
    intro hm
    rcases List.mem_cons.1 hm with rfl | hm
    · exact h rfl
    · exact ih hm

end Lambdict.Text.Utf8
