import Mathlib
import Touchstone.Text.Utf8

/-!
# Reading written text

The bytes of a character are cut off as one piece, whatever bytes follow them.  So the bytes of a
text are read as the text.

## Main results

* `Touchstone.Text.Utf8.piece_utf8EncodeChar` : the bytes of a character are one piece.
* `Touchstone.Text.Utf8.decode?_encode` : the bytes of a text are read as the text.
-/

namespace Touchstone.Text.Utf8

/-! ### Characters -/

theorem toNat_ofNat {n : Nat} (h : n < 256) : (UInt8.ofNat n).toNat = n := by
  rw [UInt8.toNat_ofNat', Nat.mod_eq_of_lt h]

/-- A byte that carries six bits is taken when the bounds allow it, and the bounds after it are
those of all such bytes. -/
theorem continuation_cons {low high : Nat} (n : Nat) (hlow : low ≤ n % 64 + 128)
    (hhigh : n % 64 + 128 ≤ high) (hbyte : high < 256) (count value : Nat)
    (seen rest : List UInt8) :
    continuation (count + 1) (UInt8.ofNat low) (UInt8.ofNat high) value seen
        (UInt8.ofNat (n % 64 + 128) :: rest) =
      continuation count (UInt8.ofNat 0x80) (UInt8.ofNat 0xBF) (value * 64 + n % 64)
        (seen ++ [UInt8.ofNat (n % 64 + 128)]) rest := by
  have hn : (UInt8.ofNat (n % 64 + 128)).toNat = n % 64 + 128 := toNat_ofNat (by omega)
  rw [continuation, if_pos, hn, Nat.add_sub_cancel]
  · rfl
  rw [UInt8.le_iff_toNat_le, UInt8.le_iff_toNat_le, hn, toNat_ofNat (by omega), toNat_ofNat hbyte]
  exact ⟨hlow, hhigh⟩

theorem piece_one {n : Nat} (h : n < 128) (rest : List UInt8) :
    piece (UInt8.ofNat n) rest = (.scalar (Char.ofNat n), rest) := by
  have hn : (UInt8.ofNat n).toNat = n := toNat_ofNat (by omega)
  rw [piece, if_pos (by rw [UInt8.lt_iff_toNat_lt, hn]; exact h), hn]

/-- The first byte of two. -/
theorem lead?_two {n : Nat} (h : 2 ≤ n) (h' : n < 32) :
    lead? (UInt8.ofNat (n + 192)) = some ⟨n, 1, UInt8.ofNat 0x80, UInt8.ofNat 0xBF⟩ := by
  interval_cases n <;> rfl

/-- The first byte of three. -/
theorem lead?_three {n : Nat} (h : n < 16) :
    lead? (UInt8.ofNat (n + 224)) =
      some ⟨n, 2, UInt8.ofNat (if n = 0 then 0xA0 else 0x80),
        UInt8.ofNat (if n = 13 then 0x9F else 0xBF)⟩ := by
  interval_cases n <;> rfl

/-- The first byte of four. -/
theorem lead?_four {n : Nat} (h : n < 5) :
    lead? (UInt8.ofNat (n + 240)) =
      some ⟨n, 3, UInt8.ofNat (if n = 0 then 0x90 else 0x80),
        UInt8.ofNat (if n = 4 then 0x8F else 0xBF)⟩ := by
  interval_cases n <;> rfl

theorem piece_of_lead? {n : Nat} {lead : Lead} (hn : 128 ≤ n) (hbyte : n < 256)
    (h : lead? (UInt8.ofNat n) = some lead) (rest : List UInt8) :
    piece (UInt8.ofNat n) rest =
      continuation lead.count lead.low lead.high lead.value [UInt8.ofNat n] rest := by
  have hge : ¬UInt8.ofNat n < 0x80 := by
    rw [UInt8.lt_iff_toNat_lt, toNat_ofNat hbyte]
    exact Nat.not_lt.2 hn
  rw [piece, if_neg hge, h]

/-- The bytes of a character are one piece, whatever follows. -/
theorem piece_utf8EncodeChar (c : Char) (rest : List UInt8) :
    ∃ b tail, String.utf8EncodeChar c = b :: tail ∧
      piece b (tail ++ rest) = (.scalar c, rest) := by
  have hvalid : c.toNat < 0xD800 ∨ 0xDFFF < c.toNat ∧ c.toNat < 0x110000 := c.valid
  have hself : Char.ofNat c.toNat = c := Char.ofNat_toNat c
  have hval : c.val.toNat = c.toNat := rfl
  generalize c.toNat = n at *
  simp only [String.utf8EncodeChar, hval]
  -- The bounds on the second byte allow it since the value is neither too small for its length
  -- nor a surrogate.
  by_cases h₁ : n ≤ 0x7F
  · rw [if_pos h₁]
    refine ⟨_, _, rfl, ?_⟩
    rw [List.nil_append, piece_one (by omega), hself]
  rw [if_neg h₁]
  by_cases h₂ : n ≤ 0x7FF
  · rw [if_pos h₂]
    refine ⟨_, _, rfl, ?_⟩
    rw [piece_of_lead? (by omega) (by omega) (lead?_two (by omega) (by omega))]
    simp only [List.cons_append, List.nil_append]
    rw [continuation_cons _ (by omega) (by omega) (by omega) 0, continuation,
      show n / 64 % 32 * 64 + n % 64 = n by omega, hself]
  rw [if_neg h₂]
  by_cases h₃ : n ≤ 0xFFFF
  · rw [if_pos h₃]
    refine ⟨_, _, rfl, ?_⟩
    rw [piece_of_lead? (by omega) (by omega) (lead?_three (by omega))]
    simp only [List.cons_append, List.nil_append]
    rw [continuation_cons _ (by split <;> omega) (by split <;> omega) (by split <;> omega) 1,
      continuation_cons _ (by omega) (by omega) (by omega) 0, continuation,
      show (n / 4096 % 16 * 64 + n / 64 % 64) * 64 + n % 64 = n by omega, hself]
  · rw [if_neg h₃]
    refine ⟨_, _, rfl, ?_⟩
    rw [piece_of_lead? (by omega) (by omega) (lead?_four (by omega))]
    simp only [List.cons_append, List.nil_append]
    rw [continuation_cons _ (by split <;> omega) (by split <;> omega) (by split <;> omega) 2,
      continuation_cons _ (by omega) (by omega) (by omega) 1,
      continuation_cons _ (by omega) (by omega) (by omega) 0, continuation,
      show ((n / 262144 % 8 * 64 + n / 4096 % 64) * 64 + n / 64 % 64) * 64 + n % 64 = n by omega,
      hself]

/-! ### Pieces -/

theorem piecesOnto_encode (text : List Char) (done : List Piece) :
    piecesOnto done (encode text) = done.reverse ++ text.map .scalar := by
  induction text generalizing done with
  | nil => simp [encode, piecesOnto]
  | cons c text ih =>
    obtain ⟨b, tail, hbytes, hpiece⟩ := piece_utf8EncodeChar c (encode text)
    have hcons : encode (c :: text) = b :: (tail ++ encode text) := by
      rw [encode, List.flatMap_cons, hbytes]
      rfl
    rw [hcons, piecesOnto, hpiece, ih]
    simp

/-- The bytes of a text are cut into its characters. -/
theorem pieces_encode (text : List Char) : pieces (encode text) = text.map .scalar := by
  rw [pieces, piecesOnto_encode, List.reverse_nil, List.nil_append]

/-- The bytes of a text are shown as the text. -/
theorem decodeLossy_encode (text : List Char) : decodeLossy (encode text) = text := by
  rw [decodeLossy, pieces_encode, List.map_map]
  exact List.map_id text

/-- The bytes of a text are read as the text. -/
theorem decode?_encode (text : List Char) : decode? (encode text) = some text := by
  have hsound : (text.map Piece.scalar).all Piece.isScalar := by simp [Piece.isScalar]
  rw [decode?, pieces_encode, if_pos hsound, decodeLossy_encode]

end Touchstone.Text.Utf8
