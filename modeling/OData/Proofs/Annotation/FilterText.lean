/-
# `OData.Proofs.Annotation.FilterText` — filters survive their text

A filter is read back from its text if its patterns are (`Written`): each of them is read from its
own text, which has neither blanks at its ends nor a comma in it, so that it is found again between
the commas.  The reader makes only such filters: what it takes for a pattern it takes as it stands,
but for blanks behind a minus sign.  So the text of a filter is canonical (`text_is_canonical`), and
stands for it in JSON.
-/
import OData.Annotation.Filter
import OData.Proofs.Json.Ensures
import OData.Proofs.Json.Records
import OData.Proofs.Text.Split

namespace OData

open Text

/-! ## Patterns -/

/-- The text of a pattern without its minus sign. -/
def PatternTarget.body : PatternTarget → List Char
  | all => ['*']
  | under name => name.toList ++ ['.', '*']
  | exact name => name.toList

namespace AnnotationPattern

variable {p : AnnotationPattern} {target : PatternTarget} {body segment : List Char}

theorem toList_text (p : AnnotationPattern) :
    p.text.toList = (if p.exclude then ['-'] else []) ++ p.target.body := by
  obtain ⟨target, exclude⟩ := p
  cases exclude <;> cases target <;> simp [text, PatternTarget.body]

/-- A target is taken as it stands. -/
theorem body_of_parseTarget? (h : parseTarget? body = some target) : target.body = body := by
  rw [parseTarget?] at h
  split at h
  · next hall =>
      cases h
      exact hall.symm
  · split at h
    · next name hname =>
        split at h
        · cases h
        · cases h
          rw [PatternTarget.body, String.toList_ofList, eq_of_dropEnding?_eq_some hname]
    · split at h
      · cases h
      · cases h
        rw [PatternTarget.body, String.toList_ofList]

theorem ne_nil_of_parseTarget? (h : parseTarget? body = some target) : body ≠ [] := by
  rintro rfl
  cases h

/-- A pattern as it stands between the commas of a filter. -/
structure Written (p : AnnotationPattern) : Prop where
  parse_text : parse p.text.toList = .ok p
  trimmed : Trimmed p.text.toList
  nonempty : p.text.toList ≠ []
  uncut : ',' ∉ p.text.toList

theorem parse_minus (rest : List Char) (h : parseTarget? (trim rest) = some target) :
    parse ('-' :: rest) = .ok ⟨target, true⟩ := by
  rw [parse, h]

theorem parse_plain (hminus : ∀ rest, segment ≠ '-' :: rest) (h : parseTarget? segment = some target) :
    parse segment = .ok ⟨target, false⟩ := by
  rw [parse]
  · rw [h]
  · exact hminus

/-- A pattern is read from a target behind a minus sign, or from one without. -/
theorem cases_of_parse (h : parse segment = .ok p) :
    (∃ rest target, segment = '-' :: rest ∧ parseTarget? (trim rest) = some target ∧
      p = ⟨target, true⟩) ∨
    ∃ target, (∀ rest, segment ≠ '-' :: rest) ∧ parseTarget? segment = some target ∧
      p = ⟨target, false⟩ := by
  by_cases hminus : ∃ rest, segment = '-' :: rest
  · obtain ⟨rest, rfl⟩ := hminus
    cases htarget : parseTarget? (trim rest) with
    | some target =>
        rw [parse_minus rest htarget] at h
        exact .inl ⟨rest, target, rfl, htarget, (Except.ok.inj h).symm⟩
    | none =>
        rw [parse, htarget] at h
        cases h
  · rw [not_exists] at hminus
    cases htarget : parseTarget? segment with
    | some target =>
        rw [parse_plain hminus htarget] at h
        exact .inr ⟨target, hminus, rfl, (Except.ok.inj h).symm⟩
    | none =>
        rw [parse] at h
        · rw [htarget] at h
          cases h
        · exact hminus

/-- Whatever is read as a pattern, it is read again from its own text. -/
theorem written_of_parse (htrimmed : Trimmed segment) (huncut : ',' ∉ segment)
    (h : parse segment = .ok p) : p.Written := by
  rcases cases_of_parse h with ⟨rest, target, rfl, htarget, rfl⟩ | ⟨target, hminus, htarget, rfl⟩
  · have htext : (⟨target, true⟩ : AnnotationPattern).text.toList = '-' :: trim rest := by
      rw [toList_text, body_of_parseTarget? htarget]
      rfl
    have hne := ne_nil_of_parseTarget? htarget
    have hminus : Trimmed ['-'] := trimmed_of_forall (List.forall_mem_singleton.2 rfl)
    refine ⟨?_, ?_, ?_, ?_⟩ <;> rw [htext]
    · exact parse_minus _ (by rwa [trim_trim])
    · exact hminus.append (trimmed_trim rest) (List.cons_ne_nil _ _) hne
    · exact List.cons_ne_nil _ _
    · intro hmem
      rcases List.mem_cons.1 hmem with hcomma | hmem
      · cases hcomma
      · exact huncut (List.mem_cons_of_mem _ (mem_of_mem_trim hmem))
  · have htext : (⟨target, false⟩ : AnnotationPattern).text.toList = segment := by
      rw [toList_text, body_of_parseTarget? htarget]
      rfl
    refine ⟨?_, ?_, ?_, ?_⟩ <;> rw [htext]
    · exact parse_plain hminus htarget
    · exact htrimmed
    · exact ne_nil_of_parseTarget? htarget
    · exact huncut

end AnnotationPattern

/-! ## Filters -/

namespace AnnotationFilter

variable {f : AnnotationFilter}

/-- A filter whose patterns are found again in its text. -/
def Written (f : AnnotationFilter) : Prop := ∀ p ∈ f.patterns, p.Written

theorem toList_text (f : AnnotationFilter) :
    f.text.toList = join ',' (f.patterns.map fun p => p.text.toList) := by
  rw [text, String.toList_intercalate, List.map_map, join_eq_intercalate]
  rfl

theorem Written.parse_text (h : f.Written) : parse f.text = .ok f := by
  by_cases hnone : f.patterns = []
  · obtain ⟨patterns⟩ := f
    obtain rfl : patterns = [] := hnone
    rfl
  · have hsplit : splitOn ',' f.text.toList = f.patterns.map fun p => p.text.toList := by
      rw [toList_text]
      refine splitOn_join (by simpa using hnone) (List.forall_mem_map.2 fun p hp => (h p hp).uncut)
    -- A blank text would be read as the filter without patterns, so one character has to be shown.
    have htrim : (trim f.text.toList).isEmpty = false := by
      obtain ⟨p, hp⟩ := List.exists_mem_of_ne_nil _ hnone
      obtain ⟨c, rest, htext⟩ := List.exists_cons_of_ne_nil (h p hp).nonempty
      have hc : c ∈ f.text.toList := by
        rw [toList_text]
        exact mem_join (htext ▸ List.mem_cons_self) (List.mem_map_of_mem hp)
      rw [List.isEmpty_eq_false_iff]
      intro hblank
      have hhead := (h p hp).trimmed.head c (by rw [htext]; rfl)
      rw [isBlank_of_trim_eq_nil hblank c hc] at hhead
      cases hhead
    have hpatterns : (f.patterns.map fun p => p.text.toList).mapM
        (fun segment => AnnotationPattern.parse (trim segment)) = .ok f.patterns := by
      refine mapM_map_eq_ok fun p hp => ?_
      rw [(h p hp).trimmed.trim_eq]
      exact (h p hp).parse_text
    rw [parse, htrim, hsplit, hpatterns]
    rfl

theorem written_of_parse {text : String} (h : parse text = .ok f) : f.Written := by
  rw [parse] at h
  split at h
  · cases h
    exact nofun
  · obtain ⟨patterns, hpatterns, hf⟩ := exists_of_bind_eq_ok h
    cases hf
    refine forall_mem_of_mapM_eq_ok hpatterns ?_
    intro segment hsegment p hp
    refine AnnotationPattern.written_of_parse (trimmed_trim segment) ?_ hp
    exact fun hmem => not_mem_of_mem_splitOn hsegment (mem_of_mem_trim hmem)

/-- A filter for every name, for none, or one that some text says. -/
def Made (f : AnnotationFilter) : Prop := f = all ∨ f = none ∨ ∃ text, parse text = .ok f

theorem Made.written (h : f.Made) : f.Written := by
  rcases h with rfl | rfl | ⟨text, htext⟩
  · have hparse : parse "*" = .ok all := by decide +kernel
    exact written_of_parse hparse
  · exact nofun
  · exact written_of_parse htext

/-! ## The JSON form -/

section Json

variable {ρ : Type}

open Json Json.Scan

theorem Written.readsAs_scan (h : f.Written) : ReadsAs (ρ := ρ) scan f.toTree f := by
  refine (readsAs_string _ f.text).bind ?_
  rw [h.parse_text]

/-- A filter that is read is one that some text says. -/
theorem ensures_scan : Ensures (ρ := ρ) scan Made := by
  refine Ensures.after fun text => ?_
  split
  · next f hparse => exact Ensures.pure (.inr (.inr ⟨text, hparse⟩))
  · exact ensures_misfit

/-- The text of a filter is canonical: whatever text a filter was read from, with blanks and minus signs
wherever they may stand, it is read again from its own, and so from its JSON form.  The filters for
every name and for none are read so as well.  Two filters with one text are the same, and reading JSON
makes no others. -/
theorem text_is_canonical :
    (∀ f : AnnotationFilter, f.Made → parse f.text = .ok f ∧ (parse f.text).map text = .ok f.text ∧
      run (ρ := ρ) scan (Text.Utf8.encode f.toTree.compact) = .ok f) ∧
    (∀ f g : AnnotationFilter, f.Made → g.Made → f.text = g.text → f = g) ∧
    ∀ (bytes : List UInt8) (f : AnnotationFilter), run (ρ := ρ) scan bytes = .ok f → f.Made := by
  refine ⟨?_, ?_, ?_⟩
  · intro f hf
    have hparse : parse f.text = .ok f := hf.written.parse_text
    refine ⟨hparse, ?_, hf.written.readsAs_scan.run (Tree.faithful_string f.text).jsonText⟩
    rw [hparse]
    rfl
  · intro f g hf hg htext
    have hparse : parse f.text = .ok g := htext ▸ hg.written.parse_text
    rw [hf.written.parse_text] at hparse
    exact Except.ok.inj hparse
  · intro bytes f hrun
    exact ensures_scan.run hrun

/-- A blank that is not one of ASCII, a blank inside a namespace, and minus signs behind a minus sign. -/
theorem text_is_canonical_with_blanks :
    let f : AnnotationFilter := ⟨[⟨.under "My Space", false⟩, ⟨.all, true⟩, ⟨.exact "-  c", true⟩]⟩
    parse "\u3000My Space.* ,-\u2003*,--  c" = .ok f ∧ f.text = "My Space.*,-*,--  c" ∧
      parse f.text = .ok f ∧ run (ρ := Empty) scan (Text.Utf8.encode f.toTree.compact) = .ok f := by
  intro f
  have hparse : parse "\u3000My Space.* ,-\u2003*,--  c" = .ok f := by decide +kernel
  obtain ⟨hagain, -, hjson⟩ := (text_is_canonical (ρ := Empty)).1 f (.inr (.inr ⟨_, hparse⟩))
  exact ⟨hparse, by decide +kernel, hagain, hjson⟩

end Json

end AnnotationFilter

end OData
