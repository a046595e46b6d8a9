/-!
# BitRecord.Text.Utf8

Text from octets.
-/

namespace BitRecord.Utf8

/-- The first sequence that is not UTF-8: where it starts, and its length unless the octets end
before it is complete. -/
structure Fault where
  index : Nat
  length : Option Nat
  deriving DecidableEq

def Fault.message (f : Fault) : String :=
  match f.length with
  | some n => s!"invalid utf-8 sequence of {n} bytes from index {f.index}"
  | none => s!"incomplete utf-8 byte sequence from index {f.index}"

/-- An octet that continues a sequence. -/
def isContinuation (octet : UInt8) : Bool := 0x80 ≤ octet ∧ octet ≤ 0xBF

/-- What may follow a lead octet of a longer sequence: the range of the second octet, and the number
of octets behind it. -/
def lead? (octet : UInt8) : Option (UInt8 × UInt8 × Nat) :=
  if 0xC2 ≤ octet ∧ octet ≤ 0xDF then some (0x80, 0xBF, 0)
  else if octet = 0xE0 then some (0xA0, 0xBF, 1)
  else if octet = 0xED then some (0x80, 0x9F, 1)
  else if 0xE1 ≤ octet ∧ octet ≤ 0xEF then some (0x80, 0xBF, 1)
  else if octet = 0xF0 then some (0x90, 0xBF, 2)
  else if octet = 0xF4 then some (0x80, 0x8F, 2)
  else if 0xF1 ≤ octet ∧ octet ≤ 0xF3 then some (0x80, 0xBF, 2)
  else none

/-- The first fault in octets that start at `index`. -/
def firstFault (index : Nat) : List UInt8 → Option Fault
  | [] => none
  | first :: rest =>
    if first < 0x80 then firstFault (index + 1) rest
    else
      match lead? first, rest with
      | none, _ => some ⟨index, some 1⟩
      | some _, [] => some ⟨index, none⟩
      | some (low, high, more), second :: rest =>
        if second < low ∨ high < second then some ⟨index, some 1⟩
        else
          match more, rest with
          | 0, rest => firstFault (index + 2) rest
          | _, [] => some ⟨index, none⟩
          | 1, third :: rest =>
            if isContinuation third then firstFault (index + 3) rest else some ⟨index, some 2⟩
          | _, third :: rest =>
            if isContinuation third then
              match rest with
              | [] => some ⟨index, none⟩
              | fourth :: rest =>
                if isContinuation fourth then firstFault (index + 4) rest
                else some ⟨index, some 3⟩
            else some ⟨index, some 2⟩

/-- The text whose UTF-8 form the octets are. -/
def text? (octets : List UInt8) : Option String := String.fromUTF8? ⟨octets.toArray⟩

/-- The text of octets, or where they stop being UTF-8. -/
def read (octets : List UInt8) : Except Fault String :=
  match firstFault 0 octets with
  | some fault => .error fault
  | none => .ok ((text? octets).getD "")

def octets (text : String) : List UInt8 := text.toUTF8.data.toList

end BitRecord.Utf8
