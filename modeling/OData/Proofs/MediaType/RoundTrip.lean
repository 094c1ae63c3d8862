/-
# `OData.Proofs.MediaType.RoundTrip` — media types survive their text

A media type whose type, subtype and parameter names are tokens (`Tokenized`) is read back from its
text, with whatever values its parameters have, because its text is one of the ways of writing it
(`spelling_text`).  The reader makes only such media types, so that the text of what it has read is read
as the same again.
-/
import OData.MediaType.Json
import OData.Proofs.Json.Records
import OData.Proofs.MediaType.Accepted

namespace OData.MediaType

open Text

variable {m m' : MediaType} {name value : String}

/-- The type, the subtype and the names of the parameters are tokens. -/
structure Tokenized (m : MediaType) : Prop where
  typeName : isToken m.typeName.toList = true
  subtype : isToken m.subtype.toList = true
  names : ∀ p ∈ m.parameters, isToken p.1.toList = true

/-! ## The text of a media type -/

/-- A parameter without the semicolon in front of it. -/
def segment (p : String × String) : List Char := p.1.toList ++ '=' :: valueText p.2

theorem segmentsSpelling_map_segment :
    ∀ parameters : List (String × String), SegmentsSpelling parameters (parameters.map segment)
  | [] => .nil
  | p :: parameters =>
      .parameter (.intro (padded_self _) (valueSpelling_valueText p.2) (padded_self _))
        (segmentsSpelling_map_segment parameters)

theorem join_cons_eq_flatMap (sep : Char) (part : List Char) (parts : List (List Char)) :
    join sep (part :: parts) = part ++ parts.flatMap (sep :: ·) := by
  induction parts generalizing part with
  | nil => exact (List.append_nil part).symm
  | cons next parts ih =>
      rw [join_cons (List.cons_ne_nil next parts), ih next, List.flatMap_cons]
      rfl

/-- The text of a media type is one of the ways of writing it. -/
theorem spelling_text (m : MediaType) : Spelling m.typeName m.subtype m.parameters m.text := by
  refine .intro (padded_self _) (padded_self _) (segmentsSpelling_map_segment m.parameters) ?_
  rw [text, String.toList_ofList, join_cons_eq_flatMap, List.flatMap_map]
  rfl

/-- A media type of tokens is read back from its text. -/
theorem Tokenized.parse_text (h : m.Tokenized) : parse m.text = .ok m :=
  (m.spelling_text.parse_eq h.typeName h.subtype h.names).trans
    (foldlM_addParameter (m := new m.typeName m.subtype) m.distinct)

/-! ## What is read -/

theorem Tokenized.insert (h : m.Tokenized) (hname : isToken name.toList = true) :
    (m.insert name value).Tokenized := by
  refine ⟨h.typeName, h.subtype, fun p hp => ?_⟩
  rcases exists_of_mem_insertParameter hp with hnew | ⟨q, hq, hold⟩
  · rwa [hnew]
  · rw [← hold]
    exact h.names q hq

theorem tokenized_of_parseType {context : String} {cs : List Char}
    (h : parseType context cs = .ok m) : m.Tokenized := by
  rw [parseType] at h
  split at h
  · next typeName subtype hsplit =>
      dsimp only at h
      split at h
      · cases h
      · next htokens =>
          cases h
          simp only [Bool.or_eq_true, Bool.not_eq_true', not_or, Bool.not_eq_false] at htokens
          refine ⟨?_, ?_, List.forall_mem_nil _⟩
          · rw [new, String.toList_ofList]
            exact htokens.1
          · rw [new, String.toList_ofList]
            exact htokens.2
  · cases h

/-- A parameter is only taken over if its name is a token. -/
theorem Tokenized.of_parseSegment {cs : List Char} (hm : m.Tokenized)
    (h : parseSegment m cs = .ok m') : m'.Tokenized := by
  rcases exists_of_parseSegment h with ⟨-, rfl⟩ | ⟨name, value, read, -, hname, -, -, rfl⟩
  · exact hm
  · exact hm.insert (by rwa [String.toList_ofList])

theorem Tokenized.of_foldlM {segments : List (List Char)} (hm : m.Tokenized)
    (h : segments.foldlM parseSegment m = .ok m') : m'.Tokenized := by
  induction segments generalizing m with
  | nil =>
      cases h
      exact hm
  | cons cs segments ih =>
      obtain ⟨next, hstep, hrest⟩ := exists_of_bind_eq_ok h
      exact ih (hm.of_parseSegment hstep) hrest

/-- Whatever text is read as a media type, it is one of tokens. -/
theorem tokenized_of_parse {text : String} (h : parse text = .ok m) : m.Tokenized := by
  rw [parse] at h
  split at h
  · cases h
  · obtain ⟨start, htype, hparameters⟩ := exists_of_bind_eq_ok h
    exact (tokenized_of_parseType htype).of_foldlM hparameters

/-! ## The JSON form -/

section Json

variable {ρ : Type}

open Json Json.Scan

theorem Tokenized.readsAs_scan (h : m.Tokenized) : ReadsAs (ρ := ρ) scan m.toTree m := by
  refine (readsAs_string _ m.text).bind ?_
  rw [h.parse_text]

/-- A media type of tokens is read back from its text and from its JSON form, whatever the values of
its parameters are.  Nothing else is read from any text: what is read has tokens for type, subtype and
names, and no name twice. -/
theorem survives_text :
    (∀ m : MediaType, m.Tokenized → parse m.text = .ok m ∧
      run (ρ := ρ) scan (Text.Utf8.encode m.toTree.compact) = .ok m) ∧
    ∀ (text : String) (m : MediaType), parse text = .ok m →
      m.Tokenized ∧ DistinctNames m.parameters ∧ parse m.text = .ok m := by
  refine ⟨?_, ?_⟩
  · intro m h
    exact ⟨h.parse_text, h.readsAs_scan.run (Tree.faithful_string m.text).jsonText⟩
  · intro text m h
    have htokenized := tokenized_of_parse h
    exact ⟨htokenized, m.distinct, htokenized.parse_text⟩

/-- A value with marks, backslashes and separators in it, an empty one, and one that is a token. -/
theorem survives_text_with_marks :
    let m := ofList "text" "x-note" [("title", " a;b=\"c\\\""), ("Empty", ""), ("plain", "t-1")]
    let text := "text/x-note;title=\" a;b=\\\"c\\\\\\\"\";Empty=\"\";plain=t-1"
    m.text = text ∧ m.Tokenized ∧ parse text = .ok m ∧
      run (ρ := Empty) scan (Text.Utf8.encode m.toTree.compact) = .ok m ∧
      parse " TEXT / x-note ; title = \"a\\;b\" ;; " =
        .ok (ofList "TEXT" "x-note" [("title", "a;b")]) := by
  intro m text
  have htext : m.text = text := by decide +kernel
  have htokenized : m.Tokenized :=
    ⟨by decide +kernel, by decide +kernel, by decide +kernel⟩
  obtain ⟨hparse, hjson⟩ := (survives_text (ρ := Empty)).1 m htokenized
  exact ⟨htext, htokenized, htext ▸ hparse, hjson, by decide +kernel⟩

end Json

end OData.MediaType
