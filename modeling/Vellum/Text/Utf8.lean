import Vellum.Byte
/-! Text as UTF-8. Reading goes byte by byte and keeps the character begun so
far; where a byte cannot continue it, the bytes of that character together make
one unreadable place, and the byte itself is read afresh. -/
namespace Vellum.Utf8

def encode (s : String) : Bytes := s.toList.flatMap String.utf8EncodeChar

/-- A character begun: its value so far, the bytes still owed, and the range of the next one. -/
structure Partial where
  value : Nat
  owed : Nat
  low : UInt8
  high : UInt8
  deriving DecidableEq, Repr

abbrev Piece := Option Char

def lead (b : UInt8) : List Piece × Option Partial :=
  if b < 0x80 then ([some (Char.ofNat b.toNat)], none)
  else if b < 0xC2 then ([none], none)
  else if b < 0xE0 then ([], some ⟨b.toNat - 0xC0, 1, 0x80, 0xBF⟩)
  else if b < 0xF0 then
    ([], some ⟨b.toNat - 0xE0, 2, if b = 0xE0 then 0xA0 else 0x80, if b = 0xED then 0x9F else 0xBF⟩)
  else if b < 0xF5 then
    ([], some ⟨b.toNat - 0xF0, 3, if b = 0xF0 then 0x90 else 0x80, if b = 0xF4 then 0x8F else 0xBF⟩)
  else ([none], none)

def step : Option Partial → UInt8 → List Piece × Option Partial
  | none, b => lead b
  | some p, b =>
    if p.low ≤ b ∧ b ≤ p.high then
      let value := p.value * 64 + (b.toNat - 0x80)
      if p.owed ≤ 1 then ([some (Char.ofNat value)], none)
      else ([], some ⟨value, p.owed - 1, 0x80, 0xBF⟩)
    else
      let (now, next) := lead b
      (none :: now, next)

def readPieces : Option Partial → Bytes → List Piece
  | none, [] => []
  | some _, [] => [none]
  | begun, b :: rest =>
    let (now, next) := step begun b
    now ++ readPieces next rest

def decode? (bytes : Bytes) : Option String :=
  ((readPieces none bytes).mapM id).map String.ofList

def decodeLossy (bytes : Bytes) : String :=
  String.ofList ((readPieces none bytes).map fun p => p.getD '�')

end Vellum.Utf8
