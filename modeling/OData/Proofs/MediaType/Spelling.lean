/-
# `OData.Proofs.MediaType.Spelling` — the ways of writing a media type

One media type has many texts.  Between two semicolons there may be

    nothing but blanks                   no parameter at all
    blanks name blanks = blanks value    the value bare, or quoted with more escapes than it needs

and blanks stand around the type, the slash and the subtype as well.  `Spelling` says which texts these
are, without regard to how they are read.

What is read from such a text does not depend on which of them it is (`Spelling.parse_eq`): it is what
comes of adding the parameters one behind the other.  That in turn depends on the names only, and adding
stops at the first name that is there already, but for case.
-/
import OData.Proofs.MediaType.Quoting

namespace OData

open Text

variable {name value : String} {parameters : List (String × String)}

/-! ## Parameters in order -/

theorem findParameter?_eq_none_iff : findParameter? name parameters = none ↔
    ∀ p ∈ parameters, sameName p.1 name = false := by
  simp [findParameter?]

/-- A parameter with a new name is put at the end. -/
theorem insertParameter_of_fresh (h : ∀ p ∈ parameters, sameName p.1 name = false) :
    insertParameter name value parameters = parameters ++ [(name, value)] := by
  induction parameters with
  | nil => rfl
  | cons p parameters ih =>
      rw [List.forall_mem_cons] at h
      rw [insertParameter, if_neg (Bool.eq_false_iff.1 h.1), ih h.2, List.cons_append]

namespace MediaType

variable {m m' : MediaType} {p : String × String} {left : List (String × String)}

theorem eq_of_parts (htype : m.typeName = m'.typeName) (hsubtype : m.subtype = m'.subtype)
    (hparameters : m.parameters = m'.parameters) : m = m' := by
  cases m
  cases m'
  simp_all

/-- Adds a parameter, whose name must be new. -/
def addParameter (m : MediaType) (p : String × String) : Except Fault MediaType :=
  if (m.get? p.1).isSome then .error (.duplicateName p.1) else .ok (m.insert p.1 p.2)

theorem addParameter_of_fresh (hfresh : m.get? p.1 = none) :
    addParameter m p = .ok (m.insert p.1 p.2) := by
  rw [addParameter, hfresh]
  rfl

theorem parameters_insert_of_fresh (hfresh : m.get? p.1 = none) :
    (m.insert p.1 p.2).parameters ++ left = m.parameters ++ p :: left := by
  rw [List.append_cons]
  exact congrArg (· ++ left) (insertParameter_of_fresh (findParameter?_eq_none_iff.1 hfresh))

/-- With names that are all distinct, every parameter is added. -/
theorem foldlM_addParameter (hdistinct : DistinctNames (m.parameters ++ left)) :
    left.foldlM addParameter m =
      .ok ⟨m.typeName, m.subtype, m.parameters ++ left, hdistinct⟩ := by
  -- `m` has what was added before, so that the names in it and those that are left stay distinct.
  induction left generalizing m with
  | nil => exact congrArg Except.ok (eq_of_parts rfl rfl (List.append_nil _).symm)
  | cons p left ih =>
      have hfresh : m.get? p.1 = none := by
        refine findParameter?_eq_none_iff.2 fun q hq => ?_
        exact (List.pairwise_append.1 hdistinct).2.2 q hq p List.mem_cons_self
      have hstep : (m.insert p.1 p.2).parameters ++ left = m.parameters ++ p :: left :=
        parameters_insert_of_fresh hfresh
      have hrest := ih (m := m.insert p.1 p.2) (hstep ▸ hdistinct)
      rw [List.foldlM_cons, addParameter_of_fresh hfresh]
      exact hrest.trans (congrArg Except.ok (eq_of_parts rfl rfl hstep))

/-- Otherwise the first name that is there already is refused. -/
theorem foldlM_addParameter_of_repeated (hrepeated : ¬ DistinctNames (m.parameters ++ left)) :
    ∃ before p after, left = before ++ p :: after ∧ DistinctNames (m.parameters ++ before) ∧
      (∃ q ∈ m.parameters ++ before, sameName q.1 p.1 = true) ∧
      left.foldlM addParameter m = .error (.duplicateName p.1) := by
  induction left generalizing m with
  | nil =>
      rw [List.append_nil] at hrepeated
      exact absurd m.distinct hrepeated
  | cons p left ih =>
      cases hfound : m.get? p.1 with
      | none =>
          rw [← parameters_insert_of_fresh hfound] at hrepeated
          obtain ⟨before, p', after, rfl, hbefore, hsame, herror⟩ := ih hrepeated
          rw [parameters_insert_of_fresh hfound] at hbefore hsame
          refine ⟨p :: before, p', after, rfl, hbefore, hsame, ?_⟩
          rw [List.foldlM_cons, addParameter_of_fresh hfound]
          exact herror
      | some value =>
          have hsame : ∃ q ∈ m.parameters ++ [], sameName q.1 p.1 = true := by
            by_contra hnone
            have hfresh : ∀ q ∈ m.parameters, sameName q.1 p.1 = false := by
              simpa using hnone
            rw [get?, findParameter?_eq_none_iff.2 hfresh] at hfound
            cases hfound
          refine ⟨[], p, left, rfl, ?_, hsame, ?_⟩
          · rw [List.append_nil]
            exact m.distinct
          · rw [List.foldlM_cons, addParameter, hfound]
            rfl

/-! ## The texts of a media type -/

/-- A segment that says a parameter: blanks may stand around the name and around the value. -/
inductive ParameterSpelling (p : String × String) : (segment : List Char) → Prop
  | intro {name cs value : List Char} (hname : Padded p.1.toList name)
      (hspelling : ValueSpelling p.2.toList cs) (hvalue : Padded cs value) :
      ParameterSpelling p (name ++ '=' :: value)

/-- Segments that say parameters in order; those of blanks only say none. -/
inductive SegmentsSpelling :
    (parameters : List (String × String)) → (segments : List (List Char)) → Prop
  | nil : SegmentsSpelling [] []
  | blank {parameters : List (String × String)} {segment : List Char} {segments : List (List Char)}
      (hblank : ∀ c ∈ segment, isBlank c = true) (h : SegmentsSpelling parameters segments) :
      SegmentsSpelling parameters (segment :: segments)
  | parameter {p : String × String} {parameters : List (String × String)} {segment : List Char}
      {segments : List (List Char)} (hp : ParameterSpelling p segment)
      (h : SegmentsSpelling parameters segments) :
      SegmentsSpelling (p :: parameters) (segment :: segments)

/-- The texts that say `typeName/subtype` with `parameters` in order. -/
inductive Spelling (typeName subtype : String) (parameters : List (String × String)) : String → Prop
  | intro {text : String} {before after : List Char} {segments : List (List Char)}
      (htype : Padded typeName.toList before) (hsubtype : Padded subtype.toList after)
      (hsegments : SegmentsSpelling parameters segments)
      (htext : text.toList = join ';' ((before ++ '/' :: after) :: segments)) :
      Spelling typeName subtype parameters text

variable {segment : List Char} {segments : List (List Char)}

theorem ParameterSpelling.whole (h : ParameterSpelling p segment)
    (hname : isToken p.1.toList = true) : Whole ';' segment := by
  obtain ⟨hpadded, hspelling, hvalue⟩ := h
  have hequals : Whole ';' ['='] := whole_singleton (by decide) (by decide)
  rw [List.append_cons]
  exact (((whole_of_isToken hname).padded hpadded).append hequals).append
    (hspelling.whole.padded hvalue)

theorem ParameterSpelling.parseSegment_eq (h : ParameterSpelling p segment)
    (hname : isToken p.1.toList = true) : parseSegment m segment = addParameter m p := by
  obtain ⟨hpadded, hspelling, hvalue⟩ := h
  rename_i name cs value
  have hne : (trim (name ++ '=' :: value)).isEmpty = false := by
    rw [trim_append_cons (by decide)]
    exact List.isEmpty_eq_false_iff.2 (List.append_ne_nil_of_right_ne_nil _ (List.cons_ne_nil _ _))
  have hsplit : splitOnce '=' (trim (name ++ '=' :: value)) = some (trimStart name, trimEnd value) :=
    splitOnce_trim_of_padded (by decide) hpadded (not_mem_of_isToken hname (by decide))
  have hnameTrim : trim name = p.1.toList := hpadded.trim_eq (trimmed_of_isToken hname)
  have hvalueTrim : trim value = cs := hvalue.trim_eq hspelling.trimmed
  simp only [parseSegment, hne, parseParameter, hsplit, trim_trimStart, trim_trimEnd, hnameTrim,
    hvalueTrim, hname, hspelling.unquote_eq, String.ofList_toList, addParameter]
  cases m.get? p.1 with
  | none => exact congrArg (fun value => Except.ok (m.insert p.1 value)) String.ofList_toList
  | some _ => rfl

theorem parseSegment_of_blank (h : ∀ c ∈ segment, isBlank c = true) :
    parseSegment m segment = .ok m := by
  have htrim : trim segment = [] := trim_append_of_blank h []
  rw [parseSegment, htrim]
  rfl

theorem SegmentsSpelling.whole (h : SegmentsSpelling parameters segments)
    (hnames : ∀ p ∈ parameters, isToken p.1.toList = true) :
    ∀ segment ∈ segments, Whole ';' segment := by
  induction h with
  | nil => exact nofun
  | blank hblank _ ih => exact List.forall_mem_cons.2 ⟨whole_of_blank hblank, ih hnames⟩
  | parameter hp _ ih =>
      rw [List.forall_mem_cons] at hnames
      exact List.forall_mem_cons.2 ⟨hp.whole hnames.1, ih hnames.2⟩

/-- Reading the segments is adding the parameters that they say. -/
theorem SegmentsSpelling.foldlM_eq (h : SegmentsSpelling parameters segments)
    (hnames : ∀ p ∈ parameters, isToken p.1.toList = true) (m : MediaType) :
    segments.foldlM parseSegment m = parameters.foldlM addParameter m := by
  induction h generalizing m with
  | nil => rfl
  | blank hblank _ ih =>
      rw [List.foldlM_cons, parseSegment_of_blank hblank]
      exact ih hnames m
  | parameter hp _ ih =>
      rw [List.forall_mem_cons] at hnames
      rw [List.foldlM_cons, List.foldlM_cons, hp.parseSegment_eq hnames.1]
      exact bind_congr (ih hnames.2)

variable {typeName subtype text : String}

theorem parseType_of_padded {before after : List Char} (htype : isToken typeName.toList = true)
    (hsubtype : isToken subtype.toList = true) (hbefore : Padded typeName.toList before)
    (hafter : Padded subtype.toList after) (context : String) :
    parseType context (before ++ '/' :: after) = .ok (new typeName subtype) := by
  have hsplit : splitOnce '/' (trim (before ++ '/' :: after)) =
      some (trimStart before, trimEnd after) :=
    splitOnce_trim_of_padded (by decide) hbefore (not_mem_of_isToken htype (by decide))
  simp only [parseType, hsplit, trim_trimStart, trim_trimEnd,
    hbefore.trim_eq (trimmed_of_isToken htype), hafter.trim_eq (trimmed_of_isToken hsubtype),
    htype, hsubtype, String.ofList_toList]
  rfl

theorem Spelling.parse_eq (h : Spelling typeName subtype parameters text)
    (htype : isToken typeName.toList = true) (hsubtype : isToken subtype.toList = true)
    (hnames : ∀ p ∈ parameters, isToken p.1.toList = true) :
    parse text = parameters.foldlM addParameter (new typeName subtype) := by
  obtain ⟨hbefore, hafter, hsegments, htext⟩ := h
  rename_i before after segments
  have hfull : Whole ';' (before ++ '/' :: after) := by
    have hslash : Whole ';' ['/'] := whole_singleton (by decide) (by decide)
    rw [List.append_cons]
    exact (((whole_of_isToken htype).padded hbefore).append hslash).append
      ((whole_of_isToken hsubtype).padded hafter)
  have hparts : splitUnquoted ';' text.toList = (before ++ '/' :: after) :: segments := by
    rw [htext]
    exact splitUnquoted_join (List.cons_ne_nil _ _)
      (List.forall_mem_cons.2 ⟨hfull, hsegments.whole hnames⟩)
  simp only [parse, hparts, parseType_of_padded htype hsubtype hbefore hafter]
  exact hsegments.foldlM_eq hnames _

/-- Every text of a media type is read as it, with the values as they are meant and the parameters in
their order, if no two names are the same but for case; and otherwise no text is, because of the first
name that repeats one before it. -/
theorem parse_of_spelling (htype : isToken typeName.toList = true)
    (hsubtype : isToken subtype.toList = true)
    (hnames : ∀ p ∈ parameters, isToken p.1.toList = true)
    (h : Spelling typeName subtype parameters text) :
    (∀ hdistinct : DistinctNames parameters,
      parse text = .ok ⟨typeName, subtype, parameters, hdistinct⟩) ∧
    (¬ DistinctNames parameters → ∃ before p after, parameters = before ++ p :: after ∧
      DistinctNames before ∧ (∃ q ∈ before, sameName q.1 p.1 = true) ∧
      parse text = .error (.duplicateName p.1)) := by
  rw [h.parse_eq htype hsubtype hnames]
  exact ⟨fun hdistinct => foldlM_addParameter (m := new typeName subtype) hdistinct,
    fun hrepeated => foldlM_addParameter_of_repeated (m := new typeName subtype) hrepeated⟩

/-- Blanks of several kinds, a blank segment, an escape that is not needed, a bare value with blanks and
an equals sign inside; and a name that is repeated in capitals. -/
theorem parse_of_spelling_with_blanks :
    (∃ hdistinct, parse "\u3000text /\tx-note; ;title\u00a0= \"\\a;\\\"\" ;q=b = 1\u2003;" =
      .ok ⟨"text", "x-note", [("title", "a;\""), ("q", "b = 1")], hdistinct⟩) ∧
    parse "text/x-note;q=1; Q =\"2\"" = .error (.duplicateName "Q") := by
  have hblank : ∀ {c : Char}, isBlank c = true → ∀ d ∈ [c], isBlank d = true :=
    fun h => List.forall_mem_singleton.2 h
  refine ⟨?_, ?_⟩
  · have hdistinct : DistinctNames [("title", "a;\""), ("q", "b = 1")] :=
      List.pairwise_pair.2 (by decide)
    have htitle : ParameterSpelling ("title", "a;\"") "title\u00a0= \"\\a;\\\"\" ".toList :=
      .intro ⟨[], ['\u00a0'], nofun, hblank rfl, rfl⟩
        (.quoted (.escaped 'a' (.plain (by decide) (by decide) (.escaped '"' .nil))))
        ⟨[' '], [' '], hblank rfl, hblank rfl, rfl⟩
    have hq : ParameterSpelling ("q", "b = 1") "q=b = 1\u2003".toList :=
      .intro (padded_self _)
        (.bare (by decide) (by decide) (trimmed_iff_trim_eq.2 rfl))
        ⟨[], ['\u2003'], nofun, hblank rfl, rfl⟩
    have hend : SegmentsSpelling [] [[]] := .blank nofun .nil
    have hspelling : Spelling "text" "x-note" [("title", "a;\""), ("q", "b = 1")]
        "\u3000text /\tx-note; ;title\u00a0= \"\\a;\\\"\" ;q=b = 1\u2003;" :=
      .intro ⟨['\u3000'], [' '], hblank rfl, hblank rfl, rfl⟩
        ⟨['\t'], [], hblank rfl, nofun, rfl⟩
        (.blank (hblank (c := ' ') rfl) (.parameter htitle (.parameter hq hend))) rfl
    exact ⟨hdistinct, (parse_of_spelling (by decide) (by decide) (by decide) hspelling).1 hdistinct⟩
  · have hspelling : Spelling "text" "x-note" [("q", "1"), ("Q", "2")] "text/x-note;q=1; Q =\"2\"" :=
      .intro (padded_self _) (padded_self _)
        (.parameter
          (.intro (padded_self _)
            (.bare (by decide) (by decide) (trimmed_iff_trim_eq.2 rfl))
            (padded_self _))
          (.parameter
            (.intro ⟨[' '], [' '], hblank rfl, hblank rfl, rfl⟩
              (.quoted (.plain (by decide) (by decide) .nil)) (padded_self _)) .nil)) rfl
    have hrepeated : ¬ DistinctNames [("q", "1"), ("Q", "2")] := fun hdistinct =>
      absurd (List.pairwise_pair.1 hdistinct) (by decide)
    obtain ⟨before, p, after, hparts, -, ⟨q, hq, -⟩, herror⟩ :=
      (parse_of_spelling (by decide) (by decide) (by decide) hspelling).2 hrepeated
    rw [herror]
    rcases before with _ | ⟨first, _ | ⟨second, before⟩⟩
    · cases hq
    · cases hparts
      rfl
    · simp at hparts

end MediaType

end OData
