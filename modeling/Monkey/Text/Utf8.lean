import Monkey.Text.Quoted

/-!
# Decoding UTF-8

Bytes are decoded to characters, or the first ill-formed sequence is reported: where it begins, the
bytes of it that were read before it went wrong, and why.
-/
namespace Monkey.Text.Utf8

inductive Flaw where
  | startByte
  | continuationByte
  | endOfData
  deriving DecidableEq, Repr

def Flaw.reason : Flaw → String
  | .startByte => "invalid start byte"
  | .continuationByte => "invalid continuation byte"
  | .endOfData => "unexpected end of data"

structure Fault where
  position : Nat
  bytes : List Nat
  flaw : Flaw
  deriving DecidableEq, Repr

def Fault.message (fault : Fault) : String :=
  let place :=
    match fault.bytes with
    | [byte] => "byte 0x" ++ String.ofList (hex 2 byte) ++ " in position " ++
        toString fault.position
    | bytes => "bytes in position " ++ toString fault.position ++ "-" ++
        toString (fault.position + bytes.length - 1)
  "'utf-8' codec can't decode " ++ place ++ ": " ++ fault.flaw.reason

/-- The number of continuation bytes that a start byte asks for, and the bits it carries. -/
def lead? (byte : Nat) : Option (Nat × Nat) :=
  if byte < 0x80 then some (0, byte)
  else if byte < 0xc2 then none
  else if byte < 0xe0 then some (1, byte - 0xc0)
  else if byte < 0xf0 then some (2, byte - 0xe0)
  else if byte < 0xf5 then some (3, byte - 0xf0)
  else none

/-- The range of the second byte: overlong forms, surrogates and code points beyond the last are
ruled out there. -/
def secondRange (start : Nat) : Nat × Nat :=
  if start = 0xe0 then (0xa0, 0xbf)
  else if start = 0xed then (0x80, 0x9f)
  else if start = 0xf0 then (0x90, 0xbf)
  else if start = 0xf4 then (0x80, 0x8f)
  else (0x80, 0xbf)

/-- The rest of a sequence: its code point and the bytes after it, or the bytes read so far and
what is wrong. -/
def continuation (taken : List Nat) (range : Nat × Nat) :
    Nat → Nat → List Nat → Except (List Nat × Flaw) (Nat × List Nat)
  | 0, code, rest => .ok (code, rest)
  | _ + 1, _, [] => .error (taken, .endOfData)
  | count + 1, code, byte :: rest =>
      if range.1 ≤ byte ∧ byte ≤ range.2 then
        continuation (taken ++ [byte]) (0x80, 0xbf) count (code * 64 + (byte - 0x80)) rest
      else .error (taken, .continuationByte)

theorem continuation_length {taken : List Nat} {range : Nat × Nat} {count code : Nat}
    {bytes : List Nat} {result : Nat × List Nat}
    (h : continuation taken range count code bytes = .ok result) :
    result.2.length ≤ bytes.length := by
  induction count generalizing taken range code bytes with
  | zero => simp only [continuation, Except.ok.injEq] at h; simp [← h]
  | succ count ih =>
      cases bytes with
      | nil => simp [continuation] at h
      | cons byte rest =>
          simp only [continuation] at h
          split at h
          · have := ih h; simp only [List.length_cons]; omega
          · simp at h

/-- Decodes from a position on. -/
def decodeFrom (position : Nat) (bytes : List Nat) : Except Fault (List Char) :=
  match bytes with
  | [] => .ok []
  | byte :: rest =>
      match lead? byte with
      | none => .error ⟨position, [byte], .startByte⟩
      | some (count, bits) =>
          match _h : continuation [byte] (secondRange byte) count bits rest with
          | .error (taken, flaw) => .error ⟨position, taken, flaw⟩
          | .ok (code, after) => do
              let text ← decodeFrom (position + count + 1) after
              return Char.ofNat code :: text
termination_by bytes.length
decreasing_by
  have := continuation_length _h
  simp only [List.length_cons] at *; omega

def decode (bytes : List Nat) : Except Fault (List Char) :=
  decodeFrom 0 bytes

end Monkey.Text.Utf8
