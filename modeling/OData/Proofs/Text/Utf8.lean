/-
# `OData.Proofs.Text.Utf8` — text survives its bytes

Decoding gives back what was encoded, character by character, and nothing but the bytes of a text is
decoded as it.  The four lengths of a character are four cases of the same computation on its code;
what they need of the machine's bytes is that a byte made from a number below 256 is that number.
-/
import Mathlib
import OData.Text.Utf8

namespace OData.Text.Utf8

@[simp] theorem encode_append (s t : String) : encode (s ++ t) = encode s ++ encode t := by
  simp [encode]

theorem encode_ofList (cs : List Char) :
    encode (String.ofList cs) = cs.flatMap String.utf8EncodeChar := by
  simp [encode]

theorem toNat_ofNat_lt {n : Nat} (h : n < 256) : (UInt8.ofNat n).toNat = n := by
  simp only [UInt8.toNat_ofNat', Nat.reducePow]
  omega

theorem toNat_lt (c : Char) : c.toNat < 0x110000 := by
  rcases c.valid with h | h
  · exact Nat.lt_trans h (by decide)
  · exact h.2

theorem continuation?_ofNat {n : Nat} (h : n < 64) :
    continuation? (UInt8.ofNat (n + 128)) = some n := by
  have hn : (UInt8.ofNat (n + 128)).toNat = n + 128 := toNat_ofNat_lt (by omega)
  have hrange : (0x80 : UInt8) ≤ UInt8.ofNat (n + 128) ∧ UInt8.ofNat (n + 128) ≤ 0xbf := by
    simp only [UInt8.le_iff_toNat_le, hn, UInt8.reduceToNat]
    omega
  rw [continuation?, if_pos hrange, hn, Nat.add_sub_cancel]

theorem scalar?_toNat {least n : Nat} {c : Char} (hn : n = c.toNat) (h : least ≤ n) :
    scalar? least n = some c := by
  subst hn
  rw [scalar?, if_pos ⟨h, c.valid⟩, Char.ofNat_toNat]

/-! ## One character, by the number of its bytes -/

section Lead

variable {a : Nat} {rest : List UInt8}

theorem decodeChar?_one (ha : a < 128) :
    decodeChar? (UInt8.ofNat a :: rest) = some (Char.ofNat a, rest) := by
  have hn : (UInt8.ofNat a).toNat = a := toNat_ofNat_lt (by omega)
  have h1 : UInt8.ofNat a < 0x80 := by
    simp only [UInt8.lt_iff_toNat_lt, hn, UInt8.reduceToNat]; omega
  simp only [decodeChar?, if_pos h1, hn]

variable {b c d : Nat} {ch : Char} (hb : b < 64)
include hb

theorem decodeChar?_two (ha : a < 32) (hch : a * 0x40 + b = ch.toNat) (h : 0x80 ≤ ch.toNat) :
    decodeChar? (UInt8.ofNat (a + 192) :: UInt8.ofNat (b + 128) :: rest) = some (ch, rest) := by
  have hn : (UInt8.ofNat (a + 192)).toNat = a + 192 := toNat_ofNat_lt (by omega)
  simp only [decodeChar?, UInt8.lt_iff_toNat_lt, hn, UInt8.reduceToNat]
  rw [if_neg (by omega), if_neg (by omega), if_pos (by omega), continuation?_ofNat hb]
  simp [scalar?_toNat hch (hch ▸ h)]

variable (hc : c < 64)
include hc

theorem decodeChar?_three (ha : a < 16) (hch : a * 0x1000 + b * 0x40 + c = ch.toNat)
    (h : 0x800 ≤ ch.toNat) :
    decodeChar? (UInt8.ofNat (a + 224) :: UInt8.ofNat (b + 128) :: UInt8.ofNat (c + 128) :: rest) =
      some (ch, rest) := by
  have hn : (UInt8.ofNat (a + 224)).toNat = a + 224 := toNat_ofNat_lt (by omega)
  simp only [decodeChar?, UInt8.lt_iff_toNat_lt, hn, UInt8.reduceToNat]
  rw [if_neg (by omega), if_neg (by omega), if_neg (by omega), if_pos (by omega),
    continuation?_ofNat hb, continuation?_ofNat hc]
  simp [scalar?_toNat hch (hch ▸ h)]

theorem decodeChar?_four (ha : a < 8) (hd : d < 64)
    (hch : a * 0x40000 + b * 0x1000 + c * 0x40 + d = ch.toNat) (h : 0x10000 ≤ ch.toNat) :
    decodeChar? (UInt8.ofNat (a + 240) :: UInt8.ofNat (b + 128) :: UInt8.ofNat (c + 128) ::
      UInt8.ofNat (d + 128) :: rest) = some (ch, rest) := by
  have hn : (UInt8.ofNat (a + 240)).toNat = a + 240 := toNat_ofNat_lt (by omega)
  simp only [decodeChar?, UInt8.lt_iff_toNat_lt, hn, UInt8.reduceToNat]
  rw [if_neg (by omega), if_neg (by omega), if_neg (by omega), if_neg (by omega),
    if_pos (by omega), continuation?_ofNat hb, continuation?_ofNat hc, continuation?_ofNat hd]
  rw [Option.bind_eq_bind, Option.bind_some, Option.bind_eq_bind, Option.bind_some,
    Option.bind_some, Nat.add_sub_cancel, scalar?_toNat hch (hch ▸ h)]
  rfl

end Lead

/-- A character is read off the front of its own bytes. -/
theorem decodeChar?_encodeChar (c : Char) (rest : List UInt8) :
    decodeChar? (String.utf8EncodeChar c ++ rest) = some (c, rest) := by
  have hlt := toNat_lt c
  have hv : c.val.toNat = c.toNat := rfl
  simp only [String.utf8EncodeChar, hv]
  split
  · next h1 =>
      have h : decodeChar? (UInt8.ofNat c.toNat :: rest) = some (Char.ofNat c.toNat, rest) :=
        decodeChar?_one (by omega)
      rwa [Char.ofNat_toNat] at h
  · split
    · exact decodeChar?_two (by omega) (by omega) (by omega) (by omega)
    · split
      · exact decodeChar?_three (by omega) (by omega) (by omega) (by omega) (by omega)
      · exact decodeChar?_four (by omega) (by omega) (by omega) (by omega) (by omega) (by omega)

/-! ## Whole texts -/

theorem encodeChar_ne_nil (c : Char) : String.utf8EncodeChar c ≠ [] := by
  simp only [String.utf8EncodeChar]
  split
  · simp
  · split
    · simp
    · split <;> simp

theorem decodeFrom_flatMap :
    ∀ (cs : List Char) (fuel : Nat), (cs.flatMap String.utf8EncodeChar).length ≤ fuel →
      decodeFrom fuel (cs.flatMap String.utf8EncodeChar) = .text cs
  | [], fuel, _ => by cases fuel <;> rfl
  | c :: cs, fuel, hfuel => by
      obtain ⟨b, bs, hbs⟩ := List.exists_cons_of_ne_nil (encodeChar_ne_nil c)
      have hdecode := decodeChar?_encodeChar c (cs.flatMap String.utf8EncodeChar)
      simp only [List.flatMap_cons, hbs, List.cons_append, List.length_cons,
        List.length_append] at hfuel hdecode ⊢
      obtain ⟨fuel, rfl⟩ : ∃ n, fuel = n + 1 := ⟨fuel - 1, by omega⟩
      rw [decodeFrom, hdecode]
      simp only [decodeFrom_flatMap cs fuel (by omega), Decoded.cons]

theorem decode_flatMap (cs : List Char) :
    decode (cs.flatMap String.utf8EncodeChar) = .text cs :=
  decodeFrom_flatMap cs _ (Nat.le_refl _)

/-- Texts with the same bytes are the same. -/
theorem encode_injective : Function.Injective encode := by
  intro s t h
  have hdecode : Decoded.text s.toList = .text t.toList := by
    rw [← decode_flatMap, ← decode_flatMap]
    exact congrArg decode h
  exact String.toList_inj.1 (Decoded.text.inj hdecode)

/-! ## Back from what was decoded -/

theorem of_continuation? {b : UInt8} {n : Nat} (h : continuation? b = some n) :
    n < 64 ∧ b = UInt8.ofNat (n + 128) := by
  unfold continuation? at h
  split at h
  · next hrange =>
      have hn := Option.some.inj h
      simp only [UInt8.le_iff_toNat_le, UInt8.reduceToNat] at hrange
      have hlow : n < 64 := by omega
      refine ⟨hlow, ?_⟩
      rw [← UInt8.toNat_inj, toNat_ofNat_lt (by omega)]
      omega
  · cases h

theorem toNat_of_isValidChar {n : Nat} (h : n.isValidChar) : (Char.ofNat n).toNat = n := by
  rw [Char.ofNat, dif_pos h]
  rfl

theorem of_scalar? {least n : Nat} {c : Char} (h : scalar? least n = some c) :
    least ≤ n ∧ c.toNat = n := by
  unfold scalar? at h
  split at h
  · next hvalid =>
      rw [← Option.some.inj h]
      exact ⟨hvalid.1, toNat_of_isValidChar hvalid.2⟩
  · cases h

theorem eq_ofNat {a : UInt8} {n : Nat} (h : a.toNat = n) : a = UInt8.ofNat n := by
  rw [← h, UInt8.ofNat_toNat]

section Encoded

variable {a b c d : UInt8} {m n k : Nat} {ch : Char}

theorem encodeChar_one (h : ch.toNat < 0x80) : String.utf8EncodeChar ch = [UInt8.ofNat ch.toNat] := by
  have hv : ch.val.toNat = ch.toNat := rfl
  simp only [String.utf8EncodeChar, hv]
  rw [if_pos (by omega)]

-- The first byte of a longer character says how many follow, and its other bits come first in the code;
-- since the code is no smaller than `scalar?` asks for, it is encoded in as many bytes again.
variable (hb : continuation? b = some m)
include hb

theorem encodeChar_two (ha : 0xc0 ≤ a.toNat) (ha' : a.toNat < 0xe0)
    (hch : scalar? 0x80 ((a.toNat - 0xc0) * 0x40 + m) = some ch) :
    String.utf8EncodeChar ch = [a, b] := by
  obtain ⟨hm, rfl⟩ := of_continuation? hb
  obtain ⟨hleast, hcode⟩ := of_scalar? hch
  have hlead : a = UInt8.ofNat (a.toNat - 0xc0 + 0xc0) := eq_ofNat (by omega)
  have hv : ch.val.toNat = ch.toNat := rfl
  simp only [String.utf8EncodeChar, hv]
  rw [if_neg (by omega), if_pos (by omega), show ch.toNat / 64 % 32 = a.toNat - 0xc0 by omega,
    show ch.toNat % 64 = m by omega, ← hlead]

variable (hc : continuation? c = some n)
include hc

theorem encodeChar_three (ha : 0xe0 ≤ a.toNat) (ha' : a.toNat < 0xf0)
    (hch : scalar? 0x800 ((a.toNat - 0xe0) * 0x1000 + m * 0x40 + n) = some ch) :
    String.utf8EncodeChar ch = [a, b, c] := by
  obtain ⟨hm, rfl⟩ := of_continuation? hb
  obtain ⟨hn, rfl⟩ := of_continuation? hc
  obtain ⟨hleast, hcode⟩ := of_scalar? hch
  have hlead : a = UInt8.ofNat (a.toNat - 0xe0 + 0xe0) := eq_ofNat (by omega)
  have hv : ch.val.toNat = ch.toNat := rfl
  simp only [String.utf8EncodeChar, hv]
  rw [if_neg (by omega), if_neg (by omega), if_pos (by omega),
    show ch.toNat / 4096 % 16 = a.toNat - 0xe0 by omega, show ch.toNat / 64 % 64 = m by omega,
    show ch.toNat % 64 = n by omega, ← hlead]

theorem encodeChar_four (hd : continuation? d = some k) (ha : 0xf0 ≤ a.toNat) (ha' : a.toNat < 0xf8)
    (hch : scalar? 0x10000 ((a.toNat - 0xf0) * 0x40000 + m * 0x1000 + n * 0x40 + k) = some ch) :
    String.utf8EncodeChar ch = [a, b, c, d] := by
  obtain ⟨hm, rfl⟩ := of_continuation? hb
  obtain ⟨hn, rfl⟩ := of_continuation? hc
  obtain ⟨hk, rfl⟩ := of_continuation? hd
  obtain ⟨hleast, hcode⟩ := of_scalar? hch
  have hlead : a = UInt8.ofNat (a.toNat - 0xf0 + 0xf0) := eq_ofNat (by omega)
  have hv : ch.val.toNat = ch.toNat := rfl
  simp only [String.utf8EncodeChar, hv]
  rw [if_neg (by omega), if_neg (by omega), if_neg (by omega),
    show ch.toNat / 262144 % 8 = a.toNat - 0xf0 by omega, show ch.toNat / 4096 % 64 = m by omega,
    show ch.toNat / 64 % 64 = n by omega, show ch.toNat % 64 = k by omega, ← hlead]

end Encoded

theorem eq_encodeChar_of_decodeChar? {bytes rest : List UInt8} {ch : Char}
    (h : decodeChar? bytes = some (ch, rest)) : bytes = String.utf8EncodeChar ch ++ rest := by
  unfold decodeChar? at h
  split at h
  · cases h
  rename_i a more
  simp only [UInt8.lt_iff_toNat_lt, UInt8.reduceToNat, Option.bind_eq_bind] at h
  -- One case for each range of the first byte.
  split at h
  · next hlow =>
      cases h
      have hch : (Char.ofNat a.toNat).toNat = a.toNat := toNat_of_isValidChar (.inl (by omega))
      rw [encodeChar_one (by omega), hch, UInt8.ofNat_toNat]
      rfl
  split at h
  · cases h
  split at h
  · split at h
    · simp only [Option.bind_eq_some_iff] at h
      obtain ⟨m, hm, c, hc, ⟨⟩⟩ := h
      rw [encodeChar_two hm (by omega) (by omega) hc]
      rfl
    · cases h
  split at h
  · split at h
    · simp only [Option.bind_eq_some_iff] at h
      obtain ⟨m, hm, n, hn, c, hc, ⟨⟩⟩ := h
      rw [encodeChar_three hm hn (by omega) (by omega) hc]
      rfl
    · cases h
  split at h
  · split at h
    · simp only [Option.bind_eq_some_iff] at h
      obtain ⟨m, hm, n, hn, k, hk, c, hc, ⟨⟩⟩ := h
      rw [encodeChar_four hm hn hk (by omega) (by omega) hc]
      rfl
    · cases h
  · cases h

theorem eq_flatMap_of_decodeFrom : ∀ {fuel : Nat} {bytes : List UInt8} {cs : List Char},
    decodeFrom fuel bytes = .text cs → bytes = cs.flatMap String.utf8EncodeChar
  | 0, [], _, h => by cases h; rfl
  | _ + 1, [], _, h => by cases h; rfl
  | 0, _ :: _, _, h => by cases h
  | fuel + 1, b :: bytes, cs, h => by
      rw [decodeFrom] at h
      split at h
      · next c rest hchar =>
          cases hmore : decodeFrom fuel rest with
          | faulty valid =>
              rw [hmore] at h
              cases h
          | text cs' =>
              rw [hmore] at h
              cases h
              rw [eq_encodeChar_of_decodeChar? hchar, eq_flatMap_of_decodeFrom hmore,
                List.flatMap_cons]
      · cases h

/-- Bytes are read as a text exactly if they are its bytes. -/
theorem decode_eq_text_iff {bytes : List UInt8} {cs : List Char} :
    decode bytes = .text cs ↔ bytes = cs.flatMap String.utf8EncodeChar := by
  constructor
  · exact eq_flatMap_of_decodeFrom
  · rintro rfl
    exact decode_flatMap cs

end OData.Text.Utf8
