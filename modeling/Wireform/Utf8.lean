/-
  The UTF-8 validator `hs_proto_validate_utf8_fast`.

  Sixteen and then eight bytes at a time are skipped while none has its high
  bit set; the scalar loops take over at the first block that has one.
-/
import Mathlib.Tactic.Common

namespace Wireform.Utf8

/-- Skip blocks of `n` bytes that are all ASCII: the rest, and whether the loop
    stopped at a block that is not. -/
def skipAscii (n : Nat) : Nat → List UInt8 → List UInt8 × Bool
  | 0, buf => (buf, false)
  | fuel + 1, buf =>
    if buf.length < n then (buf, false)
    else if (buf.take n).any fun b => b ≥ 0x80 then (buf, true)
    else skipAscii n fuel (buf.drop n)

/-- The number of bytes a lead byte announces, and the payload bits it
    carries. -/
def leadByte (b : UInt8) : Option (Nat × UInt32) :=
  if b &&& 0xE0 = 0xC0 then some (2, (b &&& 0x1F).toUInt32)
  else if b &&& 0xF0 = 0xE0 then some (3, (b &&& 0x0F).toUInt32)
  else if b &&& 0xF8 = 0xF0 then some (4, (b &&& 0x07).toUInt32)
  else none

/-- Add the payload of the continuation bytes. -/
def continuation : List UInt8 → UInt32 → Option UInt32
  | [], codepoint => some codepoint
  | cb :: rest, codepoint =>
    if cb &&& 0xC0 = 0x80 then
      continuation rest ((codepoint <<< 6) ||| (cb &&& 0x3F).toUInt32)
    else none

/-- The overlong, surrogate and range checks. -/
def codepointOk (count : Nat) (codepoint : UInt32) : Bool :=
  !(count = 2 && codepoint < 0x80) && !(count = 3 && codepoint < 0x800) &&
    !(count = 4 && codepoint < 0x10000) && !(codepoint ≥ 0xD800 && codepoint ≤ 0xDFFF) &&
    !(codepoint > 0x10FFFF)

/-- The full validation loop, with at least one step for each byte. -/
def slowFrom : Nat → List UInt8 → Bool
  | 0, _ => true
  | _ + 1, [] => true
  | fuel + 1, b :: rest =>
    if b < 0x80 then slowFrom fuel rest
    else
      match leadByte b with
      | none => false
      | some (count, codepoint) =>
        if rest.length + 1 < count then false
        else
          match continuation (rest.take (count - 1)) codepoint with
          | none => false
          | some codepoint =>
            codepointOk count codepoint && slowFrom fuel (rest.drop (count - 1))

/-- `hs_proto_validate_utf8_fast`. -/
def validateUtf8 (buf : List UInt8) : Bool :=
  let (buf, slow) := skipAscii 16 buf.length buf
  if slow then slowFrom buf.length buf
  else
    let (buf, slow) := skipAscii 8 buf.length buf
    if slow then slowFrom buf.length buf
    else
      let (buf, slow) := skipAscii 1 buf.length buf
      if slow then slowFrom buf.length buf else true

end Wireform.Utf8
