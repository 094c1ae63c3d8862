/-
# `OData.Proofs.MediaType.Accepted` — what an accepted text was read from

A text is accepted segment by segment.  One that is not blank says a parameter with a new name, and
what it says is still there in the end (`get?_of_foldlM`), so that what is known of a parameter is known of
the segment that says it.

A value that begins with a mark is accepted if it ends with another.  Whether a backslash takes that
mark is not asked, and so there are values that no mark closes and that are accepted all the same:

| in front of the last mark | the value |
| :-- | :-- |
| backslashes in pairs, or none | is closed (`Terminated`) |
| one backslash more | is not; it is read as if that backslash were not there |

The second kind is found in the last segment only.  Cutting at semicolons does ask which marks are taken
(`Quotation`), and to it such a value stays open to the end of the text (`afterAll_of_unpaired`).
-/
import OData.Proofs.Json.Reading
import OData.Proofs.MediaType.Parameters

namespace OData.MediaType

open Text

variable {m m' : MediaType} {q : Quotation} {c : Char} {cs content segment name value : List Char}

/-! ## Backslashes and what they take -/

/-- Each backslash takes the character behind it, and the last one finds one to take. -/
inductive Paired : List Char → Prop
  | nil : Paired []
  | plain {c : Char} {cs : List Char} (hc : c ≠ '\\') (h : Paired cs) : Paired (c :: cs)
  | escape (c : Char) {cs : List Char} (h : Paired cs) : Paired ('\\' :: c :: cs)

theorem paired_cons_iff (hc : c ≠ '\\') : Paired (c :: cs) ↔ Paired cs := by
  refine ⟨fun h => ?_, .plain hc⟩
  cases h with
  | plain _ h => exact h
  | escape _ _ => exact absurd rfl hc

theorem paired_escape_iff : Paired ('\\' :: c :: cs) ↔ Paired cs := by
  refine ⟨fun h => ?_, .escape c⟩
  cases h with
  | plain hc _ => exact absurd rfl hc
  | escape _ h => exact h

theorem not_paired_backslash : ¬ Paired ['\\'] := by
  rintro (_ | ⟨hc, _⟩)
  exact hc rfl

/-- Seen from the end: a backslash there is taken if one is left over before it, and is left over itself
otherwise. -/
theorem paired_concat_iff : Paired (cs ++ [c]) ↔ (c = '\\' → ¬ Paired cs) := by
  have hfirst : Paired [c] ↔ (c = '\\' → ¬ Paired []) := by
    constructor
    · rintro h rfl
      exact absurd h not_paired_backslash
    · exact fun h => .plain (fun hc => h hc .nil) .nil
  -- Whether a backslash takes the next character decides how far the induction goes back.
  induction cs using List.twoStepInduction with
  | nil => exact hfirst
  | singleton d =>
      by_cases hd : d = '\\'
      · subst hd
        exact iff_of_true (.escape c .nil) fun _ => not_paired_backslash
      · rw [List.cons_append, paired_cons_iff hd, paired_cons_iff hd]
        exact hfirst
  | cons_cons d e cs ih ih' =>
      by_cases hd : d = '\\'
      · subst hd
        rw [List.cons_append, List.cons_append, paired_escape_iff, paired_escape_iff]
        exact ih
      · rw [List.cons_append, paired_cons_iff hd, paired_cons_iff hd]
        exact ih' e

theorem exists_of_not_paired (h : ¬ Paired cs) : ∃ kept, cs = kept ++ ['\\'] ∧ Paired kept := by
  rcases List.eq_nil_or_concat' cs with rfl | ⟨kept, c, rfl⟩
  · exact absurd .nil h
  · rw [paired_concat_iff, Classical.not_imp, not_not] at h
    obtain ⟨rfl, hkept⟩ := h
    exact ⟨kept, rfl, hkept⟩

/-- Only the backslashes at the end count: they have to be even in number. -/
theorem paired_iff_even : Paired cs ↔ Even (cs.rtakeWhile (· = '\\')).length := by
  induction cs using List.reverseRecOn with
  | nil => exact iff_of_true .nil (by simp)
  | append_singleton cs c ih =>
      rw [paired_concat_iff]
      by_cases hc : c = '\\'
      · rw [List.rtakeWhile_concat_pos _ _ _ (by simpa using hc), List.length_append,
          List.length_singleton, Nat.even_add_one, ← ih, imp_iff_right hc]
      · rw [List.rtakeWhile_concat_neg _ _ _ (by simpa using hc)]
        exact iff_of_true (fun h => absurd h hc) (by simp)

theorem Paired.unescape_concat (h : Paired cs) : unescape (cs ++ ['\\']) = unescape cs := by
  induction h with
  | nil => rfl
  | plain hc _ ih => rw [List.cons_append, unescape_cons hc, unescape_cons hc, ih]
  | escape c _ ih => rw [List.cons_append, List.cons_append, unescape, unescape, ih]

/-- The value is closed: read from its opening mark, with each backslash taking the character behind it,
it ends with a mark that is not taken. -/
def Terminated (value : List Char) : Prop :=
  ∃ content, Paired content ∧ value = '"' :: content ++ ['"']

theorem terminated_iff : Terminated ('"' :: content ++ ['"']) ↔ Paired content := by
  refine ⟨?_, fun h => ⟨content, h, rfl⟩⟩
  rintro ⟨content', h, hvalue⟩
  rwa [List.append_cancel_right (List.cons.inj hvalue).2]

/-! ## Where cutting stands -/

theorem Quotation.after_ne_escaped (hc : c ≠ '\\') (q : Quotation) : q.after c ≠ .escaped := by
  cases q with
  | outside =>
      rw [after]
      split <;> rintro ⟨⟩
  | inside =>
      rw [after, if_neg hc]
      split <;> rintro ⟨⟩
  | escaped => rintro ⟨⟩

/-- Cutting and pairing both heed backslashes, the first inside quotation marks only.  In front of any
character they agree at least in this: it is not taken by the first and left by the second, and
inside quotation marks not the other way round. -/
theorem afterAll_of_paired (hq : q ≠ .escaped) (cs : List Char) :
    (Paired cs → q.afterAll cs ≠ .escaped) ∧ (¬ Paired cs → q.afterAll cs ≠ .inside) := by
  induction cs using List.reverseRecOn with
  | nil => exact ⟨fun _ => hq, fun h => absurd .nil h⟩
  | append_singleton cs c ih =>
      have hstep : q.afterAll (cs ++ [c]) = (q.afterAll cs).after c := Quotation.afterAll_append q cs [c]
      rw [hstep, paired_concat_iff]
      by_cases hc : c = '\\'
      · subst hc
        rw [imp_iff_right rfl, not_not]
        cases hstands : q.afterAll cs with
        | outside => exact ⟨fun _ => nofun, fun _ => nofun⟩
        | inside => exact ⟨fun h => absurd hstands (ih.2 h), fun _ => nofun⟩
        | escaped => exact ⟨fun _ => nofun, fun h => absurd hstands (ih.1 h)⟩
      · exact ⟨fun _ => Quotation.after_ne_escaped hc _, fun h => absurd (fun h' => absurd h' hc) h⟩

/-- A mark that is taken leaves the quotation open. -/
theorem afterAll_of_unpaired (hq : q ≠ .escaped) (h : ¬ Paired content) :
    q.afterAll (content ++ ['"']) = .inside := by
  have hstands := afterAll_of_paired hq content
  rw [Quotation.afterAll_append]
  cases hbefore : q.afterAll content with
  | outside => rfl
  | inside => exact absurd hbefore (hstands.2 h)
  | escaped => rfl

theorem afterAll_of_blank (h : ∀ c ∈ cs, isBlank c = true) : Quotation.afterAll .inside cs = .inside := by
  induction cs with
  | nil => rfl
  | cons c cs ih =>
      rw [List.forall_mem_cons] at h
      have hstays : Quotation.after c .inside = .inside := by
        rw [Quotation.after, if_neg, if_neg]
        · rintro rfl
          exact absurd h.1 (by decide)
        · rintro rfl
          exact absurd h.1 (by decide)
      exact (congrArg (Quotation.afterAll · cs) hstays).trans (ih h.2)

/-! ## Segments -/

/-- In front of a value there is nothing that opens a quotation, and behind it there are blanks. -/
theorem exists_around_value (hsplit : splitOnce '=' (trim segment) = some (name, value))
    (hname : isToken (trim name) = true) :
    ∃ front back, segment = front ++ trim value ++ back ∧ Whole ';' front ∧
      ∀ c ∈ back, isBlank c = true := by
  obtain ⟨before, after, hbefore, hafter, hsegment⟩ := padded_trim segment
  obtain ⟨before', after', hbefore', hafter', hvalue⟩ := padded_trim value
  have hequals : Whole ';' ['='] := whole_singleton (by decide) (by decide)
  have hfront : Whole ';' (before ++ name ++ ['='] ++ before') :=
    (((whole_of_blank hbefore).append ((whole_of_isToken hname).padded (padded_trim name))).append
      hequals).append (whole_of_blank hbefore')
  refine ⟨before ++ name ++ ['='] ++ before', after' ++ after, ?_, hfront,
    List.forall_mem_append.2 ⟨hafter', hafter⟩⟩
  calc segment = before ++ trim segment ++ after := hsegment
    _ = before ++ (name ++ '=' :: value) ++ after := by rw [eq_of_splitOnce_eq_some hsplit]
    _ = before ++ (name ++ '=' :: (before' ++ trim value ++ after')) ++ after := by rw [← hvalue]
    _ = before ++ name ++ ['='] ++ before' ++ trim value ++ (after' ++ after) := by simp

/-- A value that is not closed leaves its segment open. -/
theorem not_whole_of_unpaired (hsplit : splitOnce '=' (trim segment) = some (name, value))
    (hname : isToken (trim name) = true) (hvalue : trim value = '"' :: content ++ ['"'])
    (h : ¬ Paired content) : ¬ Whole ';' segment := by
  obtain ⟨front, back, rfl, hfront, hback⟩ := exists_around_value hsplit hname
  intro hwhole
  have hclosed := hwhole.closed
  rw [hvalue, Quotation.afterAll_append, Quotation.afterAll_append, hfront.closed] at hclosed
  have hinside : Quotation.afterAll .outside ('"' :: content ++ ['"']) = .inside :=
    afterAll_of_unpaired (q := .inside) nofun h
  rw [hinside, afterAll_of_blank hback] at hclosed
  cases hclosed

/-- What an accepted segment does: nothing if it is blank, and otherwise it adds one parameter, with a new
name. -/
theorem exists_of_parseSegment (h : parseSegment m segment = .ok m') :
    (trim segment = [] ∧ m' = m) ∨
      ∃ name value read, splitOnce '=' (trim segment) = some (name, value) ∧
        isToken (trim name) = true ∧ m.get? (String.ofList (trim name)) = none ∧
        unquote (trim value) = .ok read ∧
        m' = m.insert (String.ofList (trim name)) (String.ofList read) := by
  rw [parseSegment] at h
  split at h
  · next hblank =>
      cases h
      exact .inl ⟨List.isEmpty_iff.1 hblank, rfl⟩
  · rw [parseParameter] at h
    split at h
    · next name value hsplit =>
        dsimp only at h
        split at h
        · cases h
        · next hname =>
            split at h
            · cases h
            · next hfresh =>
                obtain ⟨read, hread, hinsert⟩ := exists_of_bind_eq_ok h
                obtain rfl := Except.ok.inj hinsert
                refine .inr ⟨name, value, read, hsplit, by simpa using hname, ?_, hread, rfl⟩
                simpa using hfresh
    · cases h

theorem get?_of_parseSegment {query found : String} (h : parseSegment m segment = .ok m')
    (hfound : m.get? query = some found) : m'.get? query = some found := by
  rcases exists_of_parseSegment h with ⟨-, rfl⟩ | ⟨name, value, read, -, -, hfresh, -, rfl⟩
  · exact hfound
  · rw [get?_insert, if_neg, hfound]
    intro hsame
    obtain ⟨p, hp, hquery, -⟩ := get?_eq_some_iff.1 hfound
    have hname := findParameter?_eq_none_iff.1 hfresh p hp
    rw [sameName_trans hquery (sameName_comm _ _ ▸ hsame)] at hname
    cases hname

theorem get?_of_foldlM {query found : String} {segments : List (List Char)}
    (h : segments.foldlM parseSegment m = .ok m') (hfound : m.get? query = some found) :
    m'.get? query = some found := by
  induction segments generalizing m with
  | nil =>
      cases h
      exact hfound
  | cons segment segments ih =>
      obtain ⟨next, hstep, hrest⟩ := exists_of_bind_eq_ok h
      exact ih hrest (get?_of_parseSegment hstep hfound)

theorem exists_of_unquote {behind read : List Char} (h : unquote ('"' :: behind) = .ok read) :
    ∃ content, behind = content ++ ['"'] ∧ read = unescape content := by
  rw [unquote] at h
  split at h
  · next content hending =>
      exact ⟨content, eq_of_dropEnding?_eq_some hending, (Except.ok.inj h).symm⟩
  · cases h

/-! ## Values that begin with a mark -/

theorem exists_of_parse {text : String} {fullType : List Char} {segments : List (List Char)}
    (h : parse text = .ok m) (hparts : splitUnquoted ';' text.toList = fullType :: segments) :
    ∃ start, parseType text fullType = .ok start ∧ segments.foldlM parseSegment start = .ok m := by
  rw [parse, hparts] at h
  exact exists_of_bind_eq_ok h

/-- If a text is accepted, each value in it that begins with a mark ends with another, and says what
stands between them without its escapes.  That last mark closes the value exactly if the backslashes
directly in front of it are even in number; otherwise the value is the last one, and the backslash that
takes the mark is left out as if it were not there. -/
theorem closing_mark_of_parse {text : String} {fullType behind : List Char}
    {before after : List (List Char)} (h : parse text = .ok m)
    (hparts : splitUnquoted ';' text.toList = fullType :: (before ++ segment :: after))
    (hsplit : splitOnce '=' (trim segment) = some (name, value)) (hmark : trim value = '"' :: behind) :
    ∃ content, behind = content ++ ['"'] ∧
      m.get? (String.ofList (trim name)) = some (String.ofList (unescape content)) ∧
      (Terminated (trim value) ↔ Even (content.rtakeWhile (· = '\\')).length) ∧
      (¬ Terminated (trim value) → after = [] ∧ ∃ kept, content = kept ++ ['\\'] ∧
        Terminated ('"' :: kept ++ ['"']) ∧ unescape content = unescape kept) := by
  obtain ⟨start, -, hsegments⟩ := exists_of_parse h hparts
  rw [List.foldlM_append] at hsegments
  obtain ⟨next, -, hsegments⟩ := exists_of_bind_eq_ok hsegments
  obtain ⟨next', hsegment, hafter⟩ := exists_of_bind_eq_ok hsegments
  rcases exists_of_parseSegment hsegment with ⟨hblank, -⟩ | ⟨name', value', read, hsplit', hname, -,
    hread, rfl⟩
  · rw [hblank] at hsplit
    cases hsplit
  obtain ⟨rfl, rfl⟩ := Prod.mk.inj (Option.some.inj (hsplit.symm.trans hsplit'))
  rw [hmark] at hread
  obtain ⟨content, rfl, rfl⟩ := exists_of_unquote hread
  have hclosed : Terminated (trim value) ↔ Paired content := by
    rw [hmark]
    exact terminated_iff
  refine ⟨content, rfl, ?_, hclosed.trans paired_iff_even, ?_⟩
  · refine get?_of_foldlM hafter ?_
    rw [get?_insert, if_pos (sameName_refl _)]
  · intro hopen
    rw [hclosed] at hopen
    obtain ⟨kept, hkept, hpaired⟩ := exists_of_not_paired hopen
    refine ⟨?_, kept, hkept, terminated_iff.2 hpaired, ?_⟩
    · by_contra hmore
      have hbehind : splitUnquoted ';' text.toList = (fullType :: before) ++ segment :: after := hparts
      exact not_whole_of_unpaired hsplit hname hmark hopen (whole_of_splitUnquoted hbehind hmore)
    · rw [hkept, hpaired.unescape_concat]

/-- The last mark of the second value is taken, and the value is that of `"a"`. -/
theorem closing_mark_of_parse_taken :
    let text := "a/b;x=1;N=\"a\\\" "
    let m := ofList "a" "b" [("x", "1"), ("N", "a")]
    parse text = .ok m ∧ m.get? (String.ofList ['N']) = some (String.ofList ['a']) ∧
      ¬ Terminated "\"a\\\"".toList ∧ Terminated "\"a\"".toList := by
  intro text m
  have hparse : parse text = .ok m := by decide +kernel
  have hparts : splitUnquoted ';' text.toList =
      "a/b".toList :: (["x=1".toList] ++ "N=\"a\\\" ".toList :: []) := by decide +kernel
  have hsplit : splitOnce '=' (trim "N=\"a\\\" ".toList) = some (['N'], "\"a\\\"".toList) := rfl
  have hmark : trim "\"a\\\"".toList = '"' :: (['a', '\\'] ++ ['"']) := rfl
  obtain ⟨content, hcontent, hfound, hclosed, hopen⟩ :=
    closing_mark_of_parse hparse hparts hsplit hmark
  obtain rfl : ['a', '\\'] = content := List.append_cancel_right hcontent
  have hopened : ¬ Terminated (trim "\"a\\\"".toList) := by
    rw [hclosed]
    decide
  obtain ⟨-, kept, hkept, hterminated, -⟩ := hopen hopened
  obtain rfl : ['a'] = kept := List.append_cancel_right hkept
  rw [hmark] at hopened
  exact ⟨hparse, hfound, hopened, hterminated⟩

/-- A value whose last mark is taken by the backslash in front of it is accepted. -/
theorem accepts_unterminated_value :
    let text := "a/b;n=\"a\\\""
    parse text = .ok (ofList "a" "b" [("n", "a")]) ∧
      splitUnquoted ';' text.toList = ["a/b".toList, "n=\"a\\\"".toList] ∧
      splitOnce '=' (trim "n=\"a\\\"".toList) = some (['n'], "\"a\\\"".toList) ∧
      ¬ Terminated (trim "\"a\\\"".toList) := by
  intro text
  have htrim : trim "\"a\\\"".toList = '"' :: ['a', '\\'] ++ ['"'] := rfl
  refine ⟨by decide +kernel, by decide +kernel, rfl, ?_⟩
  rw [htrim, terminated_iff, paired_iff_even]
  decide

end OData.MediaType
