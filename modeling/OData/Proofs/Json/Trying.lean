/-
# `OData.Proofs.Json.Trying` — JSON that may be beyond the reader's limits

What the reader does with a text that is JSON by its form is up to that text, and not to what follows: a
string is read as the one that it spells, if it spells one, and a number as the one that it stands
for, if it is in range.  With anything else the reader stops at a flaw, and never for a reason of its
own.  So there is one value, or none, for a text (`Tries`).

A string spells what it is read as because its pieces cannot be taken in another way: an escape stands
for a whole character, so the bytes of a character that is not escaped stand one behind the other.
-/
import OData.Proofs.Json.Forms

namespace OData.Json

open Scan

namespace Scan

variable {ρ : Type}

/-! ## Reading a string -/

/-- The inside of a string, and the bytes that it stands for. -/
inductive Collects : List UInt8 → List UInt8 → Prop
  | nil : Collects [] []
  | byte {b : UInt8} {bytes inside : List UInt8} (hb : ordinary b = true)
      (h : Collects bytes inside) : Collects (b :: bytes) (b :: inside)
  | char {c : Char} {piece bytes inside : List UInt8} (hpiece : Piece c piece)
      (h : Collects bytes inside) : Collects (String.utf8EncodeChar c ++ bytes) (piece ++ inside)

section Codes

variable {a b d e : UInt8} {n : Nat} {i inside : List UInt8}

theorem tries_pairByte_of_ne (h : a ≠ b) (i o : List UInt8) :
    Tries (ρ := ρ) (pairByte b) (a :: i) none o := by
  refine (passes_peek _).bind_tries ((passes_advance a i).bind_tries ?_)
  rw [if_neg h]
  exact tries_flawHere _ i o

/-- The second half of a surrogate pair, the first of which has the code `n`. -/
def secondHalf (n : Nat) : Scan ρ Char := do
  pairByte Byte.backslash
  pairByte Byte.smallU
  let m ← hexEscape
  if isTrailingSurrogate m then pure (pairChar n m) else flawHere .loneSurrogate

theorem tries_codeEscape_leading {c? : Option Char} {o : List UInt8}
    (hn : hexCode? a b d e = some n) (hlead : isLeadingSurrogate n = true)
    (h : Tries (ρ := ρ) (secondHalf n) i c? o) :
    Tries (ρ := ρ) codeEscape (a :: b :: d :: e :: i) c? o := by
  refine (passes_hexEscape hn i).bind_tries ?_
  have htrail : isTrailingSurrogate n = false := not_trailing_of_leading hlead
  simp only [htrail, hlead, Bool.false_eq_true, if_false, if_true]
  exact h

/-- What follows the first half of a surrogate pair is the second one, or it is a flaw. -/
theorem secondHalf_or_flaw (h : InsideForm inside) :
    (∃ a b d e m left, hexCode? a b d e = some m ∧ isTrailingSurrogate m = true ∧
      InsideForm left ∧ inside = codeText a b d e ++ left) ∨
    ∀ rest o, Tries (ρ := ρ) (secondHalf n) (inside ++ Byte.quote :: rest) none o := by
  cases h with
  | nil =>
      refine .inr fun rest o => ?_
      exact (tries_pairByte_of_ne (by decide) rest rest).stop _ o
  | @plain b inside hb h =>
      refine .inr fun rest o => ?_
      exact (tries_pairByte_of_ne (ordinary_iff.1 hb).2.1 _ rest).stop _ o
  | @letter b e inside hb h =>
      have hu : b ≠ Byte.smallU := by
        rintro rfl
        rw [escapedByte?_smallU] at hb
        cases hb
      refine .inr fun rest o => ?_
      exact (passes_pairByte _ _).bind_tries ((tries_pairByte_of_ne hu _ rest).stop _ o)
  | @code a b d e m left hm hleft =>
      cases htrail : isTrailingSurrogate m with
      | true => exact .inl ⟨a, b, d, e, m, left, hm, htrail, hleft, rfl⟩
      | false =>
          refine .inr fun rest o => ?_
          refine (passes_pairByte _ _).bind_tries ((passes_pairByte _ _).bind_tries ?_)
          refine (passes_hexEscape hm _).bind_tries ?_
          simp only [htrail, Bool.false_eq_true, if_false]
          exact tries_flawHere _ _ o

/-- The code of half a surrogate pair is a flaw, and every other code is that of a character, together
with the one behind it if the two are a pair. -/
theorem codeEscape_or_flaw (hn : hexCode? a b d e = some n) (h : InsideForm inside) :
    (∃ c piece left, Piece c piece ∧ InsideForm left ∧ codeText a b d e ++ inside = piece ++ left ∧
      ∀ rest, Passes (ρ := ρ) codeEscape (a :: b :: d :: e :: (inside ++ Byte.quote :: rest)) c
        (left ++ Byte.quote :: rest)) ∨
    ∀ rest o, Tries (ρ := ρ) codeEscape (a :: b :: d :: e :: (inside ++ Byte.quote :: rest))
      none o := by
  cases htrail : isTrailingSurrogate n with
  | true =>
      refine .inr fun rest o => (passes_hexEscape hn _).bind_tries ?_
      simp only [htrail, if_true]
      exact tries_flawHere _ _ o
  | false =>
      cases hlead : isLeadingSurrogate n with
      | false =>
          refine .inl ⟨Char.ofNat n, _, inside, .code hn hlead htrail, h, rfl, fun rest => ?_⟩
          exact passes_codeEscape hn hlead htrail _
      | true =>
          rcases secondHalf_or_flaw (ρ := ρ) (n := n) h with
            ⟨a', b', d', e', m, left, hm, htrail', hleft, rfl⟩ | hflaw
          · refine .inl ⟨pairChar n m, _, left, .pair hn hm hlead htrail', hleft,
              (List.append_assoc _ _ _).symm, fun rest => ?_⟩
            rw [List.append_assoc]
            exact passes_codeEscape_pair hn hm hlead htrail' _
          · exact .inr fun rest o => tries_codeEscape_leading hn hlead (hflaw rest o)

end Codes

/-- `collected?` is what a string collects that goes on with `inside`, none if that has a flaw. -/
def Collecting (ρ : Type) (inside : List UInt8) (collected? : Option (List UInt8)) : Prop :=
  ∀ (fuel : Nat) (acc rest : List UInt8), inside.length < fuel →
    Tries (ρ := ρ) (stringBytes fuel acc) (inside ++ Byte.quote :: rest)
      (collected?.map (acc.reverse ++ ·)) rest

theorem collecting_nil : Collecting ρ [] (some []) := by
  intro fuel acc rest hfuel
  obtain ⟨fuel, rfl⟩ : ∃ n, fuel = n + 1 := ⟨fuel - 1, by omega⟩
  have hpiece : Passes (ρ := ρ) stringPiece (Byte.quote :: rest) none rest :=
    (passes_next _ rest).bind (Passes.pure none rest)
  refine hpiece.bind_tries ?_
  simpa [Tries] using Passes.pure acc.reverse rest

/-- Nothing is collected of a string with a code that stands for no character. -/
theorem collecting_of_flaw {a b d e : UInt8} {inside : List UInt8}
    (hflaw : ∀ rest o, Tries (ρ := ρ) codeEscape
      (a :: b :: d :: e :: (inside ++ Byte.quote :: rest)) none o) :
    Collecting ρ (codeText a b d e ++ inside) none := by
  intro fuel acc rest hfuel
  obtain ⟨fuel, rfl⟩ : ∃ n, fuel = n + 1 := ⟨fuel - 1, by omega⟩
  have hescape : Tries (ρ := ρ) escape (Byte.smallU :: a :: b :: d :: e ::
      (inside ++ Byte.quote :: rest)) none rest :=
    (passes_next _ _).bind_tries ((hflaw rest rest).stop _ rest)
  have hpiece : Tries (ρ := ρ) stringPiece (codeText a b d e ++ inside ++ Byte.quote :: rest)
      none rest :=
    (passes_next _ _).bind_tries (hescape.stop _ rest)
  exact hpiece.stop _ rest

theorem Collecting.step (piece : List UInt8) {inside bytes : List UInt8}
    {collected? : Option (List UInt8)} (hpiece : 0 < piece.length)
    (hstep : ∀ rest, Passes (ρ := ρ) stringPiece (piece ++ (inside ++ Byte.quote :: rest))
      (some bytes) (inside ++ Byte.quote :: rest))
    (h : Collecting ρ inside collected?) :
    Collecting ρ (piece ++ inside) (collected?.map (bytes ++ ·)) := by
  intro fuel acc rest hfuel
  rw [List.length_append] at hfuel
  obtain ⟨fuel, rfl⟩ : ∃ n, fuel = n + 1 := ⟨fuel - 1, by omega⟩
  have hmore := h fuel (bytes.reverse ++ acc) rest (by omega)
  rw [List.append_assoc, Option.map_map]
  refine (hstep _).bind_tries ?_
  simpa [Function.comp_def] using hmore

/-- The bytes that the inside of a string stands for are collected, or there is a flaw in it.  A pair of
codes is one step, so this is by induction on the length and not on the form. -/
theorem exists_collecting {inside : List UInt8} (h : InsideForm inside) :
    ∃ collected?, (∀ bytes ∈ collected?, Collects bytes inside) ∧ Collecting ρ inside collected? := by
  cases h with
  | nil =>
      refine ⟨some [], ?_, collecting_nil⟩
      rintro _ ⟨⟩
      exact .nil
  | @plain b inside hb h =>
      obtain ⟨collected?, hcollects, hmore⟩ := exists_collecting h
      refine ⟨collected?.map ([b] ++ ·), ?_, ?_⟩
      · rw [Option.forall_mem_map]
        exact fun bytes hbytes => .byte hb (hcollects bytes hbytes)
      · exact hmore.step [b] Nat.one_pos fun rest => passes_stringPiece_ordinary hb _
  | @letter b e inside hb h =>
      obtain ⟨collected?, hcollects, hmore⟩ := exists_collecting h
      refine ⟨collected?.map ([e] ++ ·), ?_, ?_⟩
      · rw [Option.forall_mem_map]
        intro bytes hbytes
        rw [← encodeChar_escapedByte hb]
        exact .char (.letter hb) (hcollects bytes hbytes)
      · exact hmore.step [Byte.backslash, b] Nat.two_pos fun rest =>
          passes_stringPiece_escape (passes_escape_letter hb _)
  | @code a b d e n inside hn h =>
      -- A code, or a pair of them, leaves less of the text, but what it leaves is not always `inside`.
      rcases codeEscape_or_flaw (ρ := ρ) hn h with
        ⟨c, piece, left, hpiece, hleft, htext, hpass⟩ | hflaw
      · have hpos := length_pos_of_piece hpiece
        have hshorter : left.length < (codeText a b d e).length + inside.length := by
          rw [← List.length_append, htext, List.length_append]
          omega
        obtain ⟨collected?, hcollects, hmore⟩ := exists_collecting hleft
        rw [htext]
        refine ⟨collected?.map (String.utf8EncodeChar c ++ ·), ?_, ?_⟩
        · rw [Option.forall_mem_map]
          exact fun bytes hbytes => .char hpiece (hcollects bytes hbytes)
        · refine hmore.step piece hpos fun rest => ?_
          rw [← List.append_assoc, ← htext, List.append_assoc]
          exact passes_stringPiece_escape
            ((passes_next _ _).bind ((hpass rest).bind (Passes.pure _ _)))
      · exact ⟨none, nofun, collecting_of_flaw hflaw⟩
termination_by inside.length

/-! ## What a string spells -/

/-- A byte with which no character begins. -/
def continues (b : UInt8) : Bool := (Text.Utf8.continuation? b).isSome

theorem exists_of_continues {b : UInt8} (h : continues b = true) :
    ∃ n < 64, b = UInt8.ofNat (n + 128) := by
  obtain ⟨n, hn⟩ := Option.isSome_iff_exists.1 h
  exact ⟨n, Text.Utf8.of_continuation? hn⟩

theorem decodeChar?_of_continues {b : UInt8} (h : continues b = true) (bytes : List UInt8) :
    Text.Utf8.decodeChar? (b :: bytes) = none := by
  obtain ⟨n, hlt, rfl⟩ := exists_of_continues h
  have hn : (UInt8.ofNat (n + 128)).toNat = n + 128 := Text.Utf8.toNat_ofNat_lt (by omega)
  simp only [Text.Utf8.decodeChar?, UInt8.lt_iff_toNat_lt, hn, UInt8.reduceToNat]
  rw [if_neg (by omega), if_pos (by omega)]

theorem continues_ofNat {n : Nat} (h : n < 64) : continues (UInt8.ofNat (n + 128)) = true := by
  rw [continues, Text.Utf8.continuation?_ofNat h]
  rfl

/-- Behind the first of its bytes, a character has only such that continue it. -/
theorem all_continues (c : Char) : (String.utf8EncodeChar c).tail.all continues = true := by
  have hlow : ∀ n, continues (UInt8.ofNat (n % 64 + 128)) = true :=
    fun n => continues_ofNat (Nat.mod_lt n (by decide))
  simp only [String.utf8EncodeChar]
  split
  · rfl
  · split
    · simp only [List.tail_cons, List.all_cons, hlow, List.all_nil, Bool.and_self]
    · split <;> simp only [List.tail_cons, List.all_cons, hlow, List.all_nil, Bool.and_self]

/-- Bytes that continue a character stand for themselves. -/
theorem Collects.of_continues : ∀ {run bytes inside : List UInt8}, run.all continues = true →
    Collects (run ++ bytes) inside → ∃ more, inside = run ++ more ∧ Collects bytes more
  | [], _, _, _, h => ⟨_, rfl, h⟩
  | b :: run, bytes, inside, hrun, h => by
      simp only [List.all_cons, Bool.and_eq_true] at hrun
      generalize hall : b :: run ++ bytes = all at h
      cases h with
      | nil => cases hall
      | byte hb h =>
          cases hall
          obtain ⟨more, rfl, hmore⟩ := Collects.of_continues hrun.2 h
          exact ⟨more, rfl, hmore⟩
      | @char c piece bytes' inside hpiece h =>
          have hchar := Text.Utf8.decodeChar?_encodeChar c bytes'
          rw [← hall, List.cons_append, decodeChar?_of_continues hrun.1] at hchar
          cases hchar

/-- A character whose first byte is ordinary can stand for itself. -/
theorem piece_of_ordinary {c : Char} {b : UInt8} {bytes : List UInt8}
    (hc : String.utf8EncodeChar c = b :: bytes) (hb : ordinary b = true) :
    Piece c (String.utf8EncodeChar c) := by
  obtain ⟨hquote, hslash, hlow⟩ := ordinary_iff.1 hb
  refine .plain ?_ ?_ ?_
  · by_contra hcontrol
    rw [Text.Utf8.encodeChar_one (by omega)] at hc
    obtain ⟨rfl, -⟩ := List.cons.inj hc
    have hbyte : (UInt8.ofNat c.toNat).toNat = c.toNat := Text.Utf8.toNat_ofNat_lt (by omega)
    refine hlow ?_
    simp only [UInt8.lt_iff_toNat_lt, hbyte, UInt8.reduceToNat]
    omega
  · rintro rfl
    exact hquote (List.cons.inj hc).1.symm
  · rintro rfl
    exact hslash (List.cons.inj hc).1.symm

/-- The characters that the bytes of a string are, are those which it spells. -/
theorem Collects.spells : ∀ {cs : List Char} {inside : List UInt8},
    Collects (cs.flatMap String.utf8EncodeChar) inside → Inside cs inside
  | [], inside, h => by
      generalize hall : [].flatMap String.utf8EncodeChar = all at h
      cases h with
      | nil => exact .nil
      | byte hb h => cases hall
      | @char c piece bytes inside hpiece h =>
          have hempty : String.utf8EncodeChar c ++ bytes = [] := hall.symm
          exact absurd (List.append_eq_nil_iff.1 hempty).1 (Text.Utf8.encodeChar_ne_nil c)
  | c :: cs, inside, h => by
      generalize hall : (c :: cs).flatMap String.utf8EncodeChar = all at h
      rw [List.flatMap_cons] at hall
      cases h with
      | nil =>
          exact absurd (List.append_eq_nil_iff.1 hall).1 (Text.Utf8.encodeChar_ne_nil c)
      | @byte b bytes inside hb h =>
          obtain ⟨b', run, hrun⟩ := List.exists_cons_of_ne_nil (Text.Utf8.encodeChar_ne_nil c)
          rw [hrun, List.cons_append] at hall
          cases hall
          have hcontinues := all_continues c
          rw [hrun, List.tail_cons] at hcontinues
          obtain ⟨more, rfl, hmore⟩ := Collects.of_continues hcontinues h
          have hinside := Inside.cons (piece_of_ordinary hrun hb) (Collects.spells hmore)
          rwa [hrun] at hinside
      | @char c' piece bytes inside hpiece h =>
          have hchar := Text.Utf8.decodeChar?_encodeChar c' bytes
          rw [← hall, Text.Utf8.decodeChar?_encodeChar] at hchar
          cases hchar
          exact .cons hpiece (Collects.spells h)

/-- A string is read as the one that it spells; if it spells none, there is a flaw in it. -/
theorem exists_tries_stringBody {inside : List UInt8} (h : InsideForm inside) :
    ∃ s? : Option String, (∀ s ∈ s?, Inside s.toList inside) ∧
      ∀ rest, Tries (ρ := ρ) stringBody (inside ++ Byte.quote :: rest) s? rest := by
  obtain ⟨collected?, hcollects, hcollecting⟩ := exists_collecting (ρ := ρ) h
  refine ⟨collected?.bind Text.Utf8.string?, ?_, ?_⟩
  · intro s hs
    obtain ⟨bytes, hbytes, hs⟩ := Option.bind_eq_some_iff.1 hs
    unfold Text.Utf8.string? at hs
    split at hs
    · next cs hdecode =>
        cases hs
        have hcollected := hcollects bytes hbytes
        rw [Text.Utf8.decode_eq_text_iff.1 hdecode] at hcollected
        rw [String.toList_ofList]
        exact hcollected.spells
    · cases hs
  · intro rest
    have hbytes : Tries (ρ := ρ) (fun c => stringBytes c.rest.length [] c)
        (inside ++ Byte.quote :: rest) collected? rest := by
      have hall := hcollecting (inside ++ Byte.quote :: rest).length [] rest (by simp)
      simp only [List.reverse_nil, List.nil_append, Option.map_id'] at hall
      exact hall
    refine hbytes.bind fun bytes => ?_
    rw [decodeText, Text.Utf8.string?]
    cases Text.Utf8.decode bytes with
    | text cs => exact Passes.pure _ rest
    | faulty valid => exact fun place => ⟨_, _, _, rfl⟩

/-! ## Names, and values without parts -/

theorem exists_tries_nextName {title : List UInt8} (h : StringForm title) :
    ∃ name? : Option String, (∀ name ∈ name?, StringText name title) ∧
      ∀ {first : Bool} {lead : List UInt8} (i : List UInt8), Lead first lead →
        Tries (ρ := ρ) (nextName first) (lead ++ (title ++ i)) (name?.map some) i := by
  obtain ⟨inside, hinside, rfl⟩ := h
  obtain ⟨name?, hname, hbody⟩ := exists_tries_stringBody (ρ := ρ) hinside
  refine ⟨name?, fun name hn => ⟨inside, hname name hn, rfl⟩, ?_⟩
  intro first lead i hlead
  exact tries_nextName (hbody i) hlead

theorem exists_tries_start {text : List UInt8} (h : ScalarForm text) :
    ∃ s? : Option Scalar, ∀ {gap i : List UInt8}, Blank gap → Halts extendsNumber i →
      Tries (ρ := ρ) start (gap ++ (text ++ i)) (s?.map Start.scalar) i := by
  cases h with
  | null => exact ⟨some .null, fun hgap _ => passes_start_null hgap⟩
  | true => exact ⟨some (.bool true), fun hgap _ => passes_start_true hgap⟩
  | false => exact ⟨some (.bool false), fun hgap _ => passes_start_false hgap⟩
  | @number l hl =>
      refine ⟨l.number?.map Scalar.number, fun hgap hi => ?_⟩
      rw [Option.map_map]
      exact tries_start_number hgap hl hi
  | string h =>
      obtain ⟨inside, hinside, rfl⟩ := h
      obtain ⟨s?, -, hbody⟩ := exists_tries_stringBody (ρ := ρ) hinside
      refine ⟨s?.map Scalar.string, fun {gap} {i} hgap _ => ?_⟩
      rw [Option.map_map]
      exact tries_start_string hgap (hbody i)

end Scan

theorem head_of_scalarForm {text : List UInt8} (h : ScalarForm text) :
    ∃ b more, text = b :: more ∧ Byte.isSpace b = false ∧ b ≠ Byte.closeBracket := by
  cases h with
  | number hl =>
      obtain ⟨b, more, htext, hspace, hclose, -⟩ := head_of_numeral hl
      exact ⟨b, more, htext, hspace, hclose⟩
  | string h =>
      obtain ⟨inside, -, rfl⟩ := h
      exact ⟨_, _, rfl, rfl, by decide⟩
  | _ => exact ⟨_, _, rfl, rfl, by decide⟩

/-- No value begins with a blank, or with what ends a list. -/
theorem head_of_valueForm : ∀ {depth : Nat} {text : List UInt8}, ValueForm depth text →
    ∃ b more, text = b :: more ∧ Byte.isSpace b = false ∧ b ≠ Byte.closeBracket
  | 0, _, h => head_of_scalarForm h
  | _ + 1, _, .inl h => head_of_scalarForm h
  | _ + 1, _, .inr (.inl ⟨_, _, htext⟩) => ⟨_, _, htext, rfl, by decide⟩
  | _ + 1, _, .inr (.inr ⟨_, _, htext⟩) => ⟨_, _, htext, rfl, by decide⟩

end OData.Json
