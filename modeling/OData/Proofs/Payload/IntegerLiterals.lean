/-
# `OData.Proofs.Payload.IntegerLiterals` — integers of a payload at their limits

An integer literal may be the value of an annotation, the number of links, or a value by itself; the
number of links may also be the string of the same digits.  What becomes of it is settled by the integer,
wherever it stands:

| the integer | as a value | as the number of links |
| :-- | :-- | :-- |
| from `-2^31` up to below `2^31` | `int32` | accepted |
| else from `-2^63` up to below `2^63` | `int64` | accepted |
| else, of a size below `leastOutOfRange` | a finite `double` | turned down |
| of a size from `leastOutOfRange` on | out of range | turned down |

The last limit is a little below the greatest double: that number itself, written as an integer, is found
to be out of range, because the reader rounds the front of a long number and a power of ten before it
multiplies them.
-/
import OData.Proofs.Payload.Sites
import OData.Proofs.Value.IntegerLiterals

namespace OData

open Json Json.Scan

namespace Text

variable {n : Int} {m : Int64}

theorem toInt_of_int64OfInt? (h : int64OfInt? n = some m) : m.toInt = n := by
  rw [int64OfInt?] at h
  split at h
  · next hfits =>
      cases h
      exact Int64.toInt_ofInt_of_le hfits.1 hfits.2
  · cases h

theorem wide_of_int64OfInt? (h : int64OfInt? n = none) : n < -(2 ^ 63) ∨ 2 ^ 63 ≤ n := by
  rw [int64OfInt?] at h
  split at h
  · cases h
  · omega

end Text

namespace Payload

variable {parseUrl : Url.Parser} {settings : ReaderSettings} {l : Numeral} {n : String}
  {front back text : List UInt8}

/-- Numbers stay as they are when 64-bit integers are restored. -/
theorem annotationValue_ofNumber (n : Number) :
    annotationValue settings (Value.ofNumber n) = Value.ofNumber n := by
  have hrestore : (Value.ofNumber n).restore = Value.ofNumber n := by
    cases n with
    | double d => rfl
    | integer n =>
        simp only [Value.ofNumber]
        split
        · rw [Value.integer]
          split <;> rfl
        · rfl
  rw [annotationValue, hrestore, ite_self]

/-- A literal that is out of range, whatever the payload goes on with. -/
theorem flawed_of_isInteger (hl : l.IsInteger) (hnone : l.number? = none)
    (hback : Halts extendsNumber back) : Flawed .numberOutOfRange (l.text ++ back) :=
  fun _ hgap => hl.stops_start hnone hgap hback

/-! ## Annotations -/

/-- A literal in the place of an annotation's value. -/
theorem gives_read_of_isInteger {site : AnnotationSite} (hl : l.IsInteger)
    (hcut : site.Cut parseUrl n front back) (haccepts : settings.annotationFilter.accepts n = true) :
    Gives (site.read parseUrl settings (front ++ (l.text ++ back)))
      (fun annotations => ∃ v, l.number?.map Value.ofNumber = some v ∧
        ∀ w, ⟨n, w⟩ ∈ annotations ↔ w = v)
      fun e => l.number?.map Value.ofNumber = none ∧ ∃ place, e = .notJson .numberOutOfRange place := by
  cases hnumber : l.number? with
  | none =>
      have hflawed := flawed_of_isInteger hl hnumber hcut.halts
      obtain ⟨place, hread⟩ : ∃ place, site.read parseUrl settings (front ++ (l.text ++ back)) =
          .error (.notJson .numberOutOfRange place) := hcut.exists_read_eq_error hflawed
      rw [hread]
      exact ⟨rfl, place, rfl⟩
  | some number =>
      have htext := Numeral.spelledBy_tree hl.wellFormed hnumber
      refine (hcut.gives_read haccepts htext number.depth_tree number.distinctNames_tree).mono ?_ ?_
      · intro annotations hannotations
        rw [Number.ofTree_tree, annotationValue_ofNumber] at hannotations
        exact ⟨Value.ofNumber number, rfl, hannotations⟩
      · exact fun _ hfalse => hfalse.elim

/-! ## The number of links -/

/-- The number of links is read as `m`; or it is turned down, and `m` does not fit in 64 bits with a
sign. -/
def CountsAs (m : Int) (result : Except PayloadError ReferenceLinks) : Prop :=
  Gives result (fun links => ∃ k : Int64, k.toInt = m ∧ links.count = some k)
    fun _ => m < -(2 ^ 63) ∨ 2 ^ 63 ≤ m

variable {before after : List (String × Tree)} {t : Tree} {m : Int}

/-- A value that says a number of links does so in its place. -/
theorem countsAs_of_countOf? (hcut : CountCut parseUrl before after front back)
    (htext : t.SpelledBy text) (hdepth : t.depth = 0) (ht : countOf? t = Text.int64OfInt? m) :
    CountsAs m (readLinks parseUrl settings (front ++ (text ++ back))) := by
  refine (hcut.gives_readLinks htext hdepth).mono ?_ ?_
  · rintro links ⟨k, hk, hlinks⟩
    rw [ht] at hk
    exact ⟨k, Text.toInt_of_int64OfInt? hk, hlinks⟩
  · intro _ hnone
    rw [ht] at hnone
    exact Text.wide_of_int64OfInt? hnone

theorem countOf?_tree {number : Number} (h : Number.OfInteger m (some number)) :
    countOf? number.tree = Text.int64OfInt? m := by
  cases h with
  | exact hlow hhigh => rfl
  | rounded hd hwide hrange => exact (if_neg (by omega)).symm

theorem countsAs_of_isInteger (hl : l.IsInteger) (hcut : CountCut parseUrl before after front back) :
    CountsAs l.toInt (readLinks parseUrl settings (front ++ (l.text ++ back))) := by
  have hinteger := hl.ofInteger
  cases hnumber : l.number? with
  | none =>
      rw [hnumber] at hinteger
      have hflawed := flawed_of_isInteger hl hnumber hcut.halts
      obtain ⟨place, hread⟩ : ∃ place, readLinks parseUrl settings (front ++ (l.text ++ back)) =
          .error (.notJson .numberOutOfRange place) := hcut.exists_readLinks_eq_error hflawed
      rw [hread]
      cases hinteger with
      | outOfRange hrange => exact Value.wide_of_outOfRange hrange
  | some number =>
      rw [hnumber] at hinteger
      exact countsAs_of_countOf? hcut (Numeral.spelledBy_tree hl.wellFormed hnumber)
        number.depth_tree (countOf?_tree hinteger)

/-- The string of the digits says the same number. -/
theorem countsAs_of_digits {s : String} (hl : l.IsInteger)
    (hcut : CountCut parseUrl before after front back) (hs : Text.Utf8.encode s = l.text)
    (htext : StringText s text) :
    CountsAs l.toInt (readLinks parseUrl settings (front ++ (text ++ back))) := by
  obtain rfl : s = Text.decimal l.toInt := Text.Utf8.encode_injective (hs.trans hl.text_eq)
  have ht : Tree.SpelledBy (.string (Text.decimal l.toInt)) text := htext
  refine countsAs_of_countOf? hcut ht rfl ?_
  rw [countOf?, Text.int64?, Text.integer?_decimal]
  rfl

/-! ## Everywhere -/

/-- What becomes of an integer literal, whose value is `v?` or which is out of range. -/
structure ReadEverywhere (parseUrl : Url.Parser) (l : Numeral) (v? : Option Value) : Prop where
  /-- By itself, with blanks around it. -/
  value : ∀ (ρ : Type) (gap gap' : List UInt8), Blank gap → Blank gap' →
    Gives (run (ρ := ρ) (Value.scan deepest) (gap ++ (l.text ++ gap'))) (fun v => v? = some v)
      fun fault => v? = none ∧ ∃ place, fault = .flaw .numberOutOfRange place
  /-- As the value of a custom annotation that the filter lets pass. -/
  annotation : ∀ (settings : ReaderSettings) (site : AnnotationSite) (n : String)
    (front back : List UInt8), site.Cut parseUrl n front back →
    settings.annotationFilter.accepts n = true →
    Gives (site.read parseUrl settings (front ++ (l.text ++ back)))
      (fun annotations => ∃ v, v? = some v ∧ ∀ w, ⟨n, w⟩ ∈ annotations ↔ w = v)
      fun e => v? = none ∧ ∃ place, e = .notJson .numberOutOfRange place
  /-- As the number of links. -/
  count : ∀ (settings : ReaderSettings) (before after : List (String × Tree))
    (front back : List UInt8), CountCut parseUrl before after front back →
    CountsAs l.toInt (readLinks parseUrl settings (front ++ (l.text ++ back)))
  /-- As the number of links, in a string of the same characters, in any spelling of the string. -/
  countString : ∀ (settings : ReaderSettings) (before after : List (String × Tree))
    (front back : List UInt8) (s : String) (text : List UInt8),
    CountCut parseUrl before after front back → Text.Utf8.encode s = l.text → StringText s text →
    CountsAs l.toInt (readLinks parseUrl settings (front ++ (text ++ back)))

namespace ReadEverywhere

variable {v : Value} (h : ReadEverywhere parseUrl l (some v))
include h

theorem exists_annotation {site : AnnotationSite} (hcut : site.Cut parseUrl n front back)
    (haccepts : settings.annotationFilter.accepts n = true) :
    ∃ annotations, site.read parseUrl settings (front ++ (l.text ++ back)) = .ok annotations ∧
      ⟨n, v⟩ ∈ annotations := by
  have hread := h.annotation settings site n front back hcut haccepts
  cases hresult : site.read parseUrl settings (front ++ (l.text ++ back)) with
  | ok annotations =>
      rw [hresult] at hread
      obtain ⟨w, hw, hmem⟩ := hread
      exact ⟨annotations, rfl, (hmem v).2 (Option.some_inj.1 hw)⟩
  | error e =>
      rw [hresult] at hread
      cases hread.1

theorem exists_countString {k : Int64} (hk : k.toInt = l.toInt) {s : String}
    (hcut : CountCut parseUrl before after front back) (hs : Text.Utf8.encode s = l.text)
    (htext : StringText s text) :
    ∃ links, readLinks parseUrl settings (front ++ (text ++ back)) = .ok links ∧
      links.count = some k := by
  have hread := h.countString settings before after front back s text hcut hs htext
  cases hresult : readLinks parseUrl settings (front ++ (text ++ back)) with
  | ok links =>
      rw [hresult] at hread
      obtain ⟨k', hk', hcount⟩ := hread
      obtain rfl : k' = k := Int64.toInt_inj.1 (hk'.trans hk.symm)
      exact ⟨links, rfl, hcount⟩
  | error e =>
      rw [hresult] at hread
      have hlow := k.le_toInt
      have hhigh := k.toInt_lt
      rcases hread with hwide | hwide <;> omega

end ReadEverywhere

/-- The text of a collection of no links and one more member, up to its value. -/
def emptyFront (name : String) : List UInt8 :=
  Text.Utf8.encode ("\x7b\"value\":[]," ++ quoted name ++ ":")

theorem memberGap_emptyFront (name : String) :
    Tree.MemberGap [("value", .list [])] name [] (emptyFront name) (Text.Utf8.encode "\x7d") := by
  have hvalue : Tree.SpelledBy (.list []) [Byte.openBracket, Byte.closeBracket] := ⟨[], blank_nil, rfl⟩
  have hlead : Lead false [Byte.comma] := ⟨[], [], blank_nil, blank_nil, rfl⟩
  have hmore : Tree.MembersUpTo false [] name
      ([Byte.comma] ++ (Text.Utf8.encode (quoted name) ++ ([] ++ Byte.colon :: []))) :=
    ⟨_, _, [], [], hlead, stringText_quoted name, blank_nil, blank_nil, rfl⟩
  have hfront : Text.Utf8.encode "\x7b\"value\":[]," = Byte.openBrace ::
      (Text.Utf8.encode (quoted "value") ++ [Byte.colon, Byte.openBracket, Byte.closeBracket, Byte.comma]) := by
    decide
  have hcolon : Text.Utf8.encode ":" = [Byte.colon] := by decide
  refine ⟨_, [], ⟨[], _, [], [], _, _, blank_nil, stringText_quoted "value", blank_nil, blank_nil, hvalue,
    hmore, rfl⟩, blank_nil, ?_, by decide⟩
  rw [emptyFront, Text.Utf8.encode_append, Text.Utf8.encode_append, hfront, hcolon]
  simp only [List.cons_append, List.append_assoc, List.nil_append]

theorem isLinks_emptyFront {m : String × Tree} (hm : LinksMember parseUrl m) (hname : m.1 ≠ "value") :
    IsLinks parseUrl (.object [("value", .list []), m]) := by
  refine isLinks_object_iff.2 ⟨⟨?_, ?_⟩, List.mem_cons_self⟩
  · simpa using hname.symm
  · refine List.forall_mem_cons.2 ⟨?_, List.forall_mem_singleton.2 hm⟩
    exact .inr (.inr (.inr (.inl ⟨rfl, [], rfl, List.forall_mem_nil _⟩)))

/-- An integer literal of any length is read according to its integer, by itself, as the value of an
annotation on any owner and as the number of links. -/
theorem integer_read_everywhere (parseUrl : Url.Parser) (hl : l.IsInteger) :
    ∃ v?, Value.OfInteger l.toInt v? ∧ ReadEverywhere parseUrl l v? := by
  refine ⟨l.number?.map Value.ofNumber, Value.ofInteger_of_number hl.ofInteger, ?_, ?_, ?_, ?_⟩
  · intro ρ gap gap' hgap hgap'
    exact Value.gives_scan_of_isInteger hl hgap hgap'
  · intro settings site n front back hcut haccepts
    exact gives_read_of_isInteger hl hcut haccepts
  · intro settings before after front back hcut
    exact countsAs_of_isInteger hl hcut
  · intro settings before after front back s text hcut hs htext
    exact countsAs_of_digits hl hcut hs htext

/-- The least integer of 64 bits and a sign, as the value of an annotation and, in a string, as the number
of links. -/
theorem integer_read_everywhere_least :
    let l : Numeral := ⟨true, [9, 2, 2, 3, 3, 7, 2, 0, 3, 6, 8, 5, 4, 7, 7, 5, 8, 0, 8], [], none⟩
    let before : List (String × Tree) := [("value", .list [])]
    let back := Text.Utf8.encode "\x7d"
    let digits := Text.Utf8.encode "\"-9223372036854775808\""
    l.IsInteger ∧ (AnnotationSite.collection before []).Cut Url.parse "n.a" (emptyFront "@n.a") back ∧
      CountCut Url.parse before [] (emptyFront count) back ∧
      (∃ annotations, (AnnotationSite.collection before []).read Url.parse {}
        (emptyFront "@n.a" ++ (l.text ++ back)) = .ok annotations ∧
          ⟨"n.a", .int64 Int64.minValue⟩ ∈ annotations) ∧
      ∃ links, readLinks Url.parse {} (emptyFront count ++ (digits ++ back)) = .ok links ∧
        links.count = some Int64.minValue := by
  intro l before back digits
  have hl : l.IsInteger := by
    refine ⟨⟨?_, by decide, by decide, List.forall_mem_nil _, ?_⟩, rfl, rfl, by decide⟩
    · unfold AreDigits
      decide
    · rintro p ⟨⟩
  have hcut : (AnnotationSite.collection before []).Cut Url.parse "n.a" (emptyFront "@n.a") back := by
    refine ⟨⟨[], _, _, [], blank_nil, blank_nil, memberGap_emptyFront "@n.a", rfl,
      (List.append_nil _).symm⟩, by decide, ?_, by decide⟩
    exact isLinks_emptyFront (linksMember_custom (n := "n.a") (by decide) List.nodup_nil) (by decide)
  have hcount : CountCut Url.parse before [] (emptyFront count) back := by
    refine ⟨⟨[], _, _, [], blank_nil, blank_nil, memberGap_emptyFront count, rfl,
      (List.append_nil _).symm⟩, ?_, by decide⟩
    exact isLinks_emptyFront (.inr (.inl ⟨rfl, rfl⟩)) (by decide)
  have hint : Int64.minValue.toInt = l.toInt := rfl
  have hdigits : Text.Utf8.encode "-9223372036854775808" = l.text := by decide
  obtain ⟨v?, hv, hread⟩ := integer_read_everywhere Url.parse hl
  obtain rfl : v? = some (.int64 Int64.minValue) := (hv.int64 _).2 ⟨hint, .inl (by decide)⟩
  exact ⟨hl, hcut, hcount, hread.exists_annotation hcut rfl,
    hread.exists_countString hint hcount hdigits (stringText_quoted _)⟩

/-! ## The greatest double -/

/-- The greatest double is a whole number, but as an integer literal it is found to be out of range. -/
theorem greatest_double_out_of_range :
    let l := decimalNumeral false Double.greatestWhole
    l.IsInteger ∧ l.toInt = Double.greatestWhole ∧
      Double.numerator (Double.codes - 1) = Double.greatestWhole * 2 ^ 1074 ∧
      ∃ place, run (ρ := Empty) (Value.scan deepest) l.text = .error (.flaw .numberOutOfRange place) := by
  intro l
  have hl : l.IsInteger := Numeral.isInteger_decimalNumeral fun h => absurd h Bool.false_ne_true
  have hint : l.toInt = Double.greatestWhole := Numeral.toInt_decimalNumeral false Double.greatestWhole
  have hrange : Number.leastOutOfRange ≤ l.toInt.natAbs := by
    rw [hint, Int.natAbs_natCast]
    exact Number.leastOutOfRange_le_greatestWhole
  have hnone : l.number? = none :=
    Option.map_eq_none_iff.1 ((Value.ofInteger_of_number hl.ofInteger).outOfRange.2 hrange)
  have hstops := hl.stops_start (ρ := Empty) hnone blank_nil (halts_nil extendsNumber)
  rw [List.append_nil] at hstops
  exact ⟨hl, hint, Double.computed.greatest, (Value.stops_scan hstops deepest).run⟩

end Payload

end OData
