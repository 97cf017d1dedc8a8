import Touchstone.Proofs.Text.Utf8

/-!
# Damaged text

The pieces of a byte sequence are made of its bytes: a character of the bytes of its UTF-8 form, a
damaged stretch of its own.  A byte sequence is repaired by putting the replacement character in
place of every damaged stretch; the lossy reading of the bytes is the reading of the repaired ones,
and valid bytes are repaired already.

## Main definitions

* `Touchstone.Text.Utf8.Valid` : a byte sequence is the UTF-8 form of a text.
* `Touchstone.Text.Utf8.repaired` : the bytes with the replacement character in place of damage.

## Main results

* `Touchstone.Text.Utf8.flatMap_bytes_pieces` : the pieces of a byte sequence are made of its bytes.
* `Touchstone.Text.Utf8.valid_iff` : valid bytes have no damaged piece.
-/

namespace Touchstone.Text.Utf8

/-! ### The bytes of a piece -/

/-- The bytes of which a piece is made. -/
def Piece.bytes : Piece → List UInt8
  | .scalar c => String.utf8EncodeChar c
  | .damaged bytes => bytes

/-- A byte that carries six bits. -/
def sixBits (y : Nat) : UInt8 := UInt8.ofNat (y + 128)

theorem sixBits_of_le {c : UInt8} (low : 0x80 ≤ c) (high : c ≤ 0xBF) :
    ∃ y < 64, c = sixBits y ∧ c.toNat = y + 128 := by
  rw [UInt8.le_iff_toNat_le] at low high
  change 128 ≤ c.toNat at low
  change c.toNat ≤ 191 at high
  refine ⟨c.toNat - 128, by omega, ?_, by omega⟩
  rw [sixBits, Nat.sub_add_cancel low, UInt8.ofNat_toNat]

/-- What `continuation` takes from the bytes: a damaged stretch, or as many bytes with six bits as
it is asked for, the first one between its bounds. -/
theorem continuation_bytes (count : Nat) {low high : UInt8} (hlow : 0x80 ≤ low)
    (hhigh : high ≤ 0xBF) (value : Nat) (seen rest : List UInt8) :
    (∃ stretch, (continuation count low high value seen rest).1 = .damaged stretch ∧
      stretch ++ (continuation count low high value seen rest).2 = seen ++ rest) ∨
    ∃ ys : List Nat, ys.length = count ∧ (∀ y ∈ ys, y < 64) ∧
      (∀ y ∈ ys.head?, low.toNat ≤ y + 128 ∧ y + 128 ≤ high.toNat) ∧
      (continuation count low high value seen rest).1 =
        .scalar (Char.ofNat (ys.foldl (fun v y => v * 64 + y) value)) ∧
      rest = ys.map sixBits ++ (continuation count low high value seen rest).2 := by
  induction count generalizing low high value seen rest with
  | zero => exact .inr ⟨[], by simp [continuation]⟩
  | succ n ih =>
    cases rest with
    | nil => exact .inl ⟨seen, by simp [continuation]⟩
    | cons c rest =>
      rw [continuation]
      split
      · rename_i h
        obtain ⟨y, hy, hc, hnat⟩ :=
          sixBits_of_le (UInt8.le_trans hlow h.1) (UInt8.le_trans h.2 hhigh)
        rcases ih (UInt8.le_refl 0x80) (UInt8.le_refl 0xBF)
            (value * 64 + (c.toNat - 0x80)) (seen ++ [c]) rest with
          ⟨stretch, hpiece, hbytes⟩ | ⟨ys, hlength, hys, -, hpiece, hrest⟩
        · exact .inl ⟨stretch, hpiece, by simpa using hbytes⟩
        · refine .inr ⟨y :: ys, by simp [hlength], List.forall_mem_cons.2 ⟨hy, hys⟩, ?_, ?_, ?_⟩
          · rw [UInt8.le_iff_toNat_le, UInt8.le_iff_toNat_le, hnat] at h
            simpa using h
          · rw [hpiece, hnat, Nat.add_sub_cancel, List.foldl_cons]
          · rw [List.map_cons, List.cons_append, ← hrest, hc]
      · exact .inl ⟨seen, rfl, rfl⟩

/-! ### The UTF-8 form of a character from its six-bit parts -/

theorem toNat_val_ofNat {n : Nat} (h : n.isValidChar) : (Char.ofNat n).val.toNat = n := by
  rw [Char.ofNat, dif_pos h]
  rfl

theorem utf8EncodeChar_two {x y : Nat} (hx : 2 ≤ x) (hx' : x < 32) (hy : y < 64) :
    String.utf8EncodeChar (Char.ofNat (x * 64 + y)) = [UInt8.ofNat (x + 192), sixBits y] := by
  have hval := toNat_val_ofNat (n := x * 64 + y) (.inl (by omega))
  simp only [String.utf8EncodeChar, hval]
  rw [if_neg (by omega), if_pos (by omega), show (x * 64 + y) / 64 % 32 = x by omega,
    show (x * 64 + y) % 64 = y by omega]
  rfl

theorem utf8EncodeChar_three {x y z : Nat} (hx : x < 16) (hy : y < 64) (hz : z < 64)
    (low : x = 0 → 32 ≤ y) (high : x = 13 → y < 32) :
    String.utf8EncodeChar (Char.ofNat ((x * 64 + y) * 64 + z)) =
      [UInt8.ofNat (x + 224), sixBits y, sixBits z] := by
  have hval := toNat_val_ofNat (n := (x * 64 + y) * 64 + z) (by
    rw [Nat.isValidChar]
    omega)
  simp only [String.utf8EncodeChar, hval]
  rw [if_neg (by omega), if_neg (by omega), if_pos (by omega),
    show ((x * 64 + y) * 64 + z) / 4096 % 16 = x by omega,
    show ((x * 64 + y) * 64 + z) / 64 % 64 = y by omega,
    show ((x * 64 + y) * 64 + z) % 64 = z by omega]
  rfl

theorem utf8EncodeChar_four {w x y z : Nat} (hw : w < 5) (hx : x < 64) (hy : y < 64) (hz : z < 64)
    (low : w = 0 → 16 ≤ x) (high : w = 4 → x < 16) :
    String.utf8EncodeChar (Char.ofNat (((w * 64 + x) * 64 + y) * 64 + z)) =
      [UInt8.ofNat (w + 240), sixBits x, sixBits y, sixBits z] := by
  have hval := toNat_val_ofNat (n := ((w * 64 + x) * 64 + y) * 64 + z) (by
    rw [Nat.isValidChar]
    omega)
  simp only [String.utf8EncodeChar, hval]
  rw [if_neg (by omega), if_neg (by omega), if_neg (by omega),
    show (((w * 64 + x) * 64 + y) * 64 + z) / 262144 % 8 = w by omega,
    show (((w * 64 + x) * 64 + y) * 64 + z) / 4096 % 64 = x by omega,
    show (((w * 64 + x) * 64 + y) * 64 + z) / 64 % 64 = y by omega,
    show (((w * 64 + x) * 64 + y) * 64 + z) % 64 = z by omega]
  rfl

/-! ### Pieces -/

/-- The bytes behind the first byte `n` are taken as the bytes of a character, if all six-bit parts
within the bounds make one. -/
theorem bytes_continuation {n count value low high : Nat} (hlow : 128 ≤ low) (hlow' : low < 256)
    (hhigh : high ≤ 191)
    (encoded : ∀ ys : List Nat, ys.length = count → (∀ y ∈ ys, y < 64) →
      (∀ y ∈ ys.head?, low ≤ y + 128 ∧ y + 128 ≤ high) →
      String.utf8EncodeChar (Char.ofNat (ys.foldl (fun v y => v * 64 + y) value)) =
        UInt8.ofNat n :: ys.map sixBits) (rest : List UInt8) :
    (continuation count (UInt8.ofNat low) (UInt8.ofNat high) value [UInt8.ofNat n] rest).1.bytes ++
        (continuation count (UInt8.ofNat low) (UInt8.ofNat high) value [UInt8.ofNat n] rest).2 =
      UInt8.ofNat n :: rest := by
  have hlowNat : (UInt8.ofNat low).toNat = low := toNat_ofNat hlow'
  have hhighNat : (UInt8.ofNat high).toNat = high := toNat_ofNat (by omega)
  have hge : 0x80 ≤ UInt8.ofNat low := by
    rw [UInt8.le_iff_toNat_le, hlowNat]
    exact hlow
  have hle : UInt8.ofNat high ≤ 0xBF := by
    rw [UInt8.le_iff_toNat_le, hhighNat]
    exact hhigh
  rcases continuation_bytes count hge hle value [UInt8.ofNat n] rest with
    ⟨stretch, hpiece, hbytes⟩ | ⟨ys, hlength, hys, hfirst, hpiece, hrest⟩
  · rw [hpiece]
    exact hbytes
  · rw [hlowNat, hhighNat] at hfirst
    rw [hpiece, Piece.bytes, encoded ys hlength hys hfirst, List.cons_append, ← hrest]

/-- A byte that begins no character is a damaged stretch. -/
theorem bytes_piece_of_lead? {b : UInt8} (h : lead? b = none) (hb : ¬ b < 0x80)
    (rest : List UInt8) : (piece b rest).1.bytes ++ (piece b rest).2 = b :: rest := by
  rw [piece, if_neg hb, h]
  rfl

theorem bytes_piece_one {n : Nat} (hn : n < 128) (rest : List UInt8) :
    (piece (UInt8.ofNat n) rest).1.bytes ++ (piece (UInt8.ofNat n) rest).2 =
      UInt8.ofNat n :: rest := by
  have hval := toNat_val_ofNat (n := n) (.inl (by omega))
  rw [piece_one hn]
  simp only [Piece.bytes, String.utf8EncodeChar, hval]
  rw [if_pos (by omega)]
  rfl

theorem bytes_piece_two {x : Nat} (hx : 2 ≤ x) (hx' : x < 32) (rest : List UInt8) :
    (piece (UInt8.ofNat (x + 192)) rest).1.bytes ++ (piece (UInt8.ofNat (x + 192)) rest).2 =
      UInt8.ofNat (x + 192) :: rest := by
  rw [piece_of_lead? (by omega) (by omega) (lead?_two hx hx')]
  refine bytes_continuation (by omega) (by omega) (by omega) (fun ys hlength hys _ => ?_) rest
  obtain ⟨y, rfl⟩ := List.length_eq_one_iff.1 hlength
  exact utf8EncodeChar_two hx hx' (hys y (by simp))

theorem bytes_piece_three {x : Nat} (hx : x < 16) (rest : List UInt8) :
    (piece (UInt8.ofNat (x + 224)) rest).1.bytes ++ (piece (UInt8.ofNat (x + 224)) rest).2 =
      UInt8.ofNat (x + 224) :: rest := by
  rw [piece_of_lead? (by omega) (by omega) (lead?_three hx)]
  refine bytes_continuation (by split <;> omega) (by split <;> omega) (by split <;> omega)
    (fun ys hlength hys hfirst => ?_) rest
  obtain ⟨y, z, rfl⟩ := List.length_eq_two.1 hlength
  obtain ⟨hlow, hhigh⟩ := hfirst y rfl
  refine utf8EncodeChar_three hx (hys y (by simp)) (hys z (by simp)) ?_ ?_
  · intro hzero
    rw [if_pos hzero] at hlow
    omega
  · intro hthirteen
    rw [if_pos hthirteen] at hhigh
    omega

theorem bytes_piece_four {w : Nat} (hw : w < 5) (rest : List UInt8) :
    (piece (UInt8.ofNat (w + 240)) rest).1.bytes ++ (piece (UInt8.ofNat (w + 240)) rest).2 =
      UInt8.ofNat (w + 240) :: rest := by
  rw [piece_of_lead? (by omega) (by omega) (lead?_four hw)]
  refine bytes_continuation (by split <;> omega) (by split <;> omega) (by split <;> omega)
    (fun ys hlength hys hfirst => ?_) rest
  obtain ⟨x, y, z, rfl⟩ := List.length_eq_three.1 hlength
  obtain ⟨hlow, hhigh⟩ := hfirst x rfl
  refine utf8EncodeChar_four hw (hys x (by simp)) (hys y (by simp)) (hys z (by simp)) ?_ ?_
  · intro hzero
    rw [if_pos hzero] at hlow
    omega
  · intro hfour
    rw [if_pos hfour] at hhigh
    omega

/-- A piece and the bytes behind it are all the bytes. -/
theorem bytes_piece (b : UInt8) (rest : List UInt8) :
    (piece b rest).1.bytes ++ (piece b rest).2 = b :: rest := by
  obtain ⟨n, hn, rfl⟩ : ∃ n < 256, b = UInt8.ofNat n :=
    ⟨b.toNat, b.toNat_lt, (UInt8.ofNat_toNat).symm⟩
  have hnat : (UInt8.ofNat n).toNat = n := toNat_ofNat hn
  by_cases h₁ : n < 128
  · exact bytes_piece_one h₁ rest
  have hlarge : ¬ UInt8.ofNat n < 0x80 := by
    rw [UInt8.lt_iff_toNat_lt, hnat]
    exact h₁
  by_cases h₂ : n < 194
  · refine bytes_piece_of_lead? ?_ hlarge rest
    rw [lead?, if_pos]
    rw [UInt8.lt_iff_toNat_lt, hnat]
    exact h₂
  by_cases h₃ : n < 224
  · obtain ⟨x, rfl⟩ := Nat.exists_eq_add_of_le' (show 192 ≤ n by omega)
    exact bytes_piece_two (by omega) (by omega) rest
  by_cases h₄ : n < 240
  · obtain ⟨x, rfl⟩ := Nat.exists_eq_add_of_le' (show 224 ≤ n by omega)
    exact bytes_piece_three (by omega) rest
  by_cases h₅ : n < 245
  · obtain ⟨w, rfl⟩ := Nat.exists_eq_add_of_le' (show 240 ≤ n by omega)
    exact bytes_piece_four (by omega) rest
  · refine bytes_piece_of_lead? ?_ hlarge rest
    interval_cases n <;> rfl

theorem flatMap_bytes_piecesOnto (done : List Piece) (bytes : List UInt8) :
    (piecesOnto done bytes).flatMap Piece.bytes = done.reverse.flatMap Piece.bytes ++ bytes := by
  fun_induction piecesOnto done bytes with
  | case1 done => rw [List.append_nil]
  | case2 done b rest ih =>
    rw [ih, List.reverse_cons, List.flatMap_append, List.flatMap_singleton, List.append_assoc,
      bytes_piece]

/-- The pieces of a byte sequence are made of its bytes. -/
theorem flatMap_bytes_pieces (bytes : List UInt8) : (pieces bytes).flatMap Piece.bytes = bytes :=
  flatMap_bytes_piecesOnto [] bytes

/-! ### Valid and repaired bytes -/

/-- The UTF-8 form of some text. -/
def Valid (bytes : List UInt8) : Prop := ∃ text, bytes = encode text

/-- The bytes with the UTF-8 form of the replacement character in place of every damaged stretch. -/
def repaired (bytes : List UInt8) : List UInt8 :=
  (pieces bytes).flatMap fun
    | .scalar c => String.utf8EncodeChar c
    | .damaged _ => [0xEF, 0xBF, 0xBD]

/-- The lossy reading is the reading of the repaired bytes. -/
theorem repaired_eq_encode (bytes : List UInt8) : repaired bytes = encode (decodeLossy bytes) := by
  rw [repaired, encode, decodeLossy, List.flatMap_map]
  refine List.flatMap_congr fun piece _ => ?_
  cases piece with
  | scalar c => rfl
  | damaged stretch =>
    have hreplacement : [0xEF, 0xBF, 0xBD] = String.utf8EncodeChar '\uFFFD' := by decide
    exact hreplacement

/-- Valid bytes have no damaged piece. -/
theorem valid_iff {bytes : List UInt8} :
    Valid bytes ↔ ∀ stretch, Piece.damaged stretch ∉ pieces bytes := by
  constructor
  · rintro ⟨text, rfl⟩ stretch mem
    simp [pieces_encode] at mem
  · intro sound
    refine ⟨decodeLossy bytes, ?_⟩
    conv_lhs => rw [← flatMap_bytes_pieces bytes]
    rw [← repaired_eq_encode, repaired]
    refine List.flatMap_congr fun piece mem => ?_
    cases piece with
    | scalar c => rfl
    | damaged stretch => exact absurd mem (sound stretch)

/-- Valid bytes are repaired already. -/
theorem Valid.repaired_eq {bytes : List UInt8} (h : Valid bytes) : repaired bytes = bytes := by
  obtain ⟨text, rfl⟩ := h
  rw [repaired_eq_encode, decodeLossy_encode]

/-- Bytes that are read as a text are its UTF-8 form. -/
theorem encode_of_decode? {bytes : List UInt8} {text : List Char} (h : decode? bytes = some text) :
    encode text = bytes := by
  rw [decode?, Option.ite_none_right_eq_some] at h
  obtain ⟨sound, hread⟩ := h
  have valid : Valid bytes := valid_iff.2 fun stretch mem => by
    simpa [Piece.isScalar] using List.all_eq_true.1 sound _ mem
  rw [← Option.some.inj hread, ← repaired_eq_encode, valid.repaired_eq]

theorem encode_injective : Function.Injective encode := fun text text' h => by
  rw [← decodeLossy_encode text, h, decodeLossy_encode]

/-- Damaged bytes are read with the replacement character. -/
theorem replacement_mem_of_not_valid {bytes : List UInt8} (h : ¬ Valid bytes) :
    '\uFFFD' ∈ decodeLossy bytes := by
  rw [valid_iff] at h
  simp only [not_forall, not_not] at h
  obtain ⟨stretch, mem⟩ := h
  exact List.mem_map_of_mem mem

end Touchstone.Text.Utf8
