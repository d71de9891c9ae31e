/-! # Text of any octets

Every sequence of octets has a text: the one that it encodes as UTF-8 or, where it does
not encode anything, a replacement character for every longest part that could have begun
a character. An octet that cannot go on with a character is looked at again as the first
of the next.
-/

namespace WordWalk

/-- A character some octets of which are still to come. -/
structure BegunChar where
  /-- The bits of the octets up to now. -/
  bits : Nat
  /-- How many octets are to come after the next one. -/
  further : Nat
  /-- The least octet that can be next. -/
  least : UInt8 := 0x80
  /-- The greatest octet that can be next. -/
  greatest : UInt8 := 0xBF
  deriving DecidableEq, Repr

structure OctetText where
  text : String := ""
  begun : Option BegunChar := none
  deriving Repr

/-- What stands for octets that encode nothing. -/
def replacementChar : Char := '\ufffd'

namespace OctetText

/-- Takes the first octet of a character. Encodings that are longer than necessary, of
    surrogates and beyond the last code point are cut off by the bounds on the second. -/
def start (t : OctetText) (octet : UInt8) : OctetText :=
  let going (c : BegunChar) : OctetText := { t with begun := some c }
  let bits := octet.toNat
  if octet < 0x80 then ⟨t.text.push (Char.ofNat bits), none⟩
  else if octet < 0xC2 then ⟨t.text.push replacementChar, none⟩
  else if octet < 0xE0 then going { bits := bits - 0xC0, further := 0 }
  else if octet = 0xE0 then going { bits := 0, further := 1, least := 0xA0 }
  else if octet = 0xED then going { bits := 0xD, further := 1, greatest := 0x9F }
  else if octet < 0xF0 then going { bits := bits - 0xE0, further := 1 }
  else if octet = 0xF0 then going { bits := 0, further := 2, least := 0x90 }
  else if octet < 0xF4 then going { bits := bits - 0xF0, further := 2 }
  else if octet = 0xF4 then going { bits := 4, further := 2, greatest := 0x8F }
  else ⟨t.text.push replacementChar, none⟩

/-- Takes one more octet. -/
def take (t : OctetText) (octet : UInt8) : OctetText :=
  match t.begun with
  | none => t.start octet
  | some c =>
      if c.least ≤ octet && octet ≤ c.greatest then
        let bits := c.bits * 64 + (octet.toNat - 0x80)
        match c.further with
        | 0 => ⟨t.text.push (Char.ofNat bits), none⟩
        | further + 1 => { t with begun := some { bits, further } }
      else OctetText.start ⟨t.text.push replacementChar, none⟩ octet

def finish (t : OctetText) : String :=
  match t.begun with
  | none => t.text
  | some _ => t.text.push replacementChar

end OctetText

def textOfOctets (octets : ByteArray) : String :=
  (octets.data.foldl OctetText.take {}).finish

end WordWalk
