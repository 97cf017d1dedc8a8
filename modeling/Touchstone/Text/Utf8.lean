/-!
# UTF-8 text inside byte sequences

File names, file contents and process output are bytes.  This module cuts a byte sequence into
pieces: characters in their UTF-8 form, and stretches that begin no character.  A stretch is as long
as it could still have become a character, so each one stands for one damaged character.

Two readings are made of the pieces.  The strict one exists when every piece is a character.  The
lossy one always exists and shows each damaged stretch as the replacement character.

## Main definitions

* `Touchstone.Text.Utf8.pieces` : the pieces of a byte sequence, in order.
* `Touchstone.Text.Utf8.decode?` : the strict reading.
* `Touchstone.Text.Utf8.decodeLossy` : the lossy reading.
* `Touchstone.Text.Utf8.encode` : the bytes of a text.
-/

namespace Touchstone.Text.Utf8

/-- One piece of a byte sequence. -/
inductive Piece where
  /-- A character in its UTF-8 form. -/
  | scalar (c : Char)
  /-- Bytes that begin a character and are not continued, or that begin none. -/
  | damaged (bytes : List UInt8)
  deriving DecidableEq, Repr

/-- A piece is sound if it is a character. -/
def Piece.isScalar : Piece → Bool
  | .scalar _ => true
  | .damaged _ => false

/-- The character shown for a piece: itself, or the replacement character for damaged bytes. -/
def Piece.shown : Piece → Char
  | .scalar c => c
  | .damaged _ => '\uFFFD'

/-! ### Cutting a byte sequence -/

/-- What the first byte of a longer character demands of the bytes after it. -/
structure Lead where
  /-- The bits that the first byte contributes. -/
  value : Nat
  /-- The number of bytes that follow. -/
  count : Nat
  /-- The least second byte. -/
  low : UInt8
  /-- The greatest second byte. -/
  high : UInt8
  deriving DecidableEq, Repr

/-- The demands of a first byte of at least `0x80`, if it begins a character.

The bounds on the second byte shut out overlong forms, surrogates and values above `0x10FFFF`. -/
def lead? (b : UInt8) : Option Lead :=
  if b < 0xC2 then none
  else if b < 0xE0 then some ⟨b.toNat - 0xC0, 1, 0x80, 0xBF⟩
  else if b = 0xE0 then some ⟨0, 2, 0xA0, 0xBF⟩
  else if b = 0xED then some ⟨0xD, 2, 0x80, 0x9F⟩
  else if b < 0xF0 then some ⟨b.toNat - 0xE0, 2, 0x80, 0xBF⟩
  else if b = 0xF0 then some ⟨0, 3, 0x90, 0xBF⟩
  else if b < 0xF4 then some ⟨b.toNat - 0xF0, 3, 0x80, 0xBF⟩
  else if b = 0xF4 then some ⟨4, 3, 0x80, 0x8F⟩
  else none

/-- Take up to `count` continuation bytes, the first of them between `low` and `high`, onto the bits
`value` and the bytes `seen`; the bytes that do not belong to the piece are returned with it. -/
def continuation (count : Nat) (low high : UInt8) (value : Nat) (seen : List UInt8) :
    List UInt8 → Piece × List UInt8
  | rest =>
    match count, rest with
    | 0, rest => (.scalar (Char.ofNat value), rest)
    | _ + 1, [] => (.damaged seen, [])
    | n + 1, c :: rest =>
      if low ≤ c ∧ c ≤ high then
        continuation n 0x80 0xBF (value * 64 + (c.toNat - 0x80)) (seen ++ [c]) rest
      else (.damaged seen, c :: rest)

/-- The piece that begins with the byte `b`, and the bytes after it. -/
def piece (b : UInt8) (rest : List UInt8) : Piece × List UInt8 :=
  if b < 0x80 then (.scalar (Char.ofNat b.toNat), rest)
  else
    match lead? b with
    | none => (.damaged [b], rest)
    | some lead => continuation lead.count lead.low lead.high lead.value [b] rest

theorem continuation_length_le (count : Nat) (low high : UInt8) (value : Nat)
    (seen rest : List UInt8) :
    (continuation count low high value seen rest).2.length ≤ rest.length := by
  induction count generalizing low high value seen rest with
  | zero => simp [continuation]
  | succ n ih =>
    cases rest with
    | nil => simp [continuation]
    | cons c rest =>
      rw [continuation]
      split
      · exact Nat.le_succ_of_le (ih _ _ _ _ _)
      · exact Nat.le_refl _

theorem piece_length_le (b : UInt8) (rest : List UInt8) :
    (piece b rest).2.length ≤ rest.length := by
  rw [piece]
  split
  · exact Nat.le_refl _
  · split
    · exact Nat.le_refl _
    · exact continuation_length_le _ _ _ _ _ _

/-- The pieces of a byte sequence, put behind the pieces `done`, which stand in reverse. -/
def piecesOnto (done : List Piece) : List UInt8 → List Piece
  | [] => done.reverse
  | b :: rest => piecesOnto ((piece b rest).1 :: done) (piece b rest).2
termination_by bytes => bytes.length
decreasing_by
  have := piece_length_le b rest
  simp only [List.length_cons]
  omega

/-- The pieces of a byte sequence, in order. -/
def pieces (bytes : List UInt8) : List Piece :=
  piecesOnto [] bytes

/-! ### Readings -/

/-- The lossy reading: every damaged stretch is one replacement character. -/
def decodeLossy (bytes : List UInt8) : List Char :=
  (pieces bytes).map Piece.shown

/-- The strict reading, which exists when no stretch is damaged. -/
def decode? (bytes : List UInt8) : Option (List Char) :=
  if (pieces bytes).all Piece.isScalar then some (decodeLossy bytes) else none

/-- The UTF-8 form of a text. -/
def encode (text : List Char) : List UInt8 :=
  text.flatMap String.utf8EncodeChar

/-- The lossy reading as a string. -/
def shown (bytes : List UInt8) : String :=
  String.ofList (decodeLossy bytes)

end Touchstone.Text.Utf8
