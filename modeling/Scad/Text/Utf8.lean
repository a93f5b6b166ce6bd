import Scad.Text.Quoted

/-! Reading bytes as UTF-8. A first byte tells how many more belong to its character and which of
them may come next; the reader stops at the first byte that rules the text out. -/
namespace Scad.Text.Utf8

inductive Complaint where
  | badStart
  | badContinuation
  | cutOff
  deriving DecidableEq

def Complaint.text : Complaint → String
  | badStart => "invalid start byte"
  | badContinuation => "invalid continuation byte"
  | cutOff => "unexpected end of data"

/-- A complaint about the bytes from `start` to before `stop`, of which `lead` is the first. -/
structure Fault where
  complaint : Complaint
  lead : Nat
  start : Nat
  stop : Nat
  deriving DecidableEq

def Fault.message (f : Fault) : String :=
  let bytes :=
    if f.stop = f.start + 1 then
      "byte 0x" ++ String.ofList (hexDigits 2 f.lead) ++ " in position " ++ toString f.start
    else "bytes in position " ++ toString f.start ++ "-" ++ toString (f.stop - 1)
  "'utf-8' codec can't decode " ++ bytes ++ ": " ++ f.complaint.text

/-- A character of which some bytes are still owed. The next has to lie between `low` and `high`. -/
structure Pending where
  start : Nat
  lead : Nat
  value : Nat
  owed : Nat
  low : Nat
  high : Nat

/-- What a first byte beyond ASCII opens. The bounds keep out longer forms than needed, surrogates
and what lies beyond the last character. -/
def opened? (start b : Nat) : Option Pending :=
  if 0xC2 ≤ b ∧ b ≤ 0xDF then some ⟨start, b, b - 0xC0, 1, 0x80, 0xBF⟩
  else if 0xE0 ≤ b ∧ b ≤ 0xEF then
    some ⟨start, b, b - 0xE0, 2, if b = 0xE0 then 0xA0 else 0x80, if b = 0xED then 0x9F else 0xBF⟩
  else if 0xF0 ≤ b ∧ b ≤ 0xF4 then
    some ⟨start, b, b - 0xF0, 3, if b = 0xF0 then 0x90 else 0x80, if b = 0xF4 then 0x8F else 0xBF⟩
  else none

def decodeFrom (offset : Nat) (pending : Option Pending) :
    List UInt8 → Except Fault (List Char)
  | [] =>
    match pending with
    | none => .ok []
    | some p => .error ⟨.cutOff, p.lead, p.start, offset⟩
  | byte :: bytes =>
    let b := byte.toNat
    match pending with
    | none =>
      if b < 0x80 then do
        let cs ← decodeFrom (offset + 1) none bytes
        return Char.ofNat b :: cs
      else
        match opened? offset b with
        | none => .error ⟨.badStart, b, offset, offset + 1⟩
        | some p => decodeFrom (offset + 1) (some p) bytes
    | some p =>
      let value := p.value * 64 + (b - 0x80)
      if b < p.low ∨ p.high < b then .error ⟨.badContinuation, p.lead, p.start, offset⟩
      else if p.owed ≤ 1 then do
        let cs ← decodeFrom (offset + 1) none bytes
        return Char.ofNat value :: cs
      else
        decodeFrom (offset + 1) (some ⟨p.start, p.lead, value, p.owed - 1, 0x80, 0xBF⟩) bytes

/-- The characters of bytes. -/
def decode (bytes : List UInt8) : Except Fault (List Char) := decodeFrom 0 none bytes

end Scad.Text.Utf8
