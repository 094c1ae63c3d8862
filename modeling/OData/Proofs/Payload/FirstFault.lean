/-
# `OData.Proofs.Payload.FirstFault` — when nothing is written, and why

Whether a payload is written depends on the names of its annotations and on nothing else.  Taken
with their owners, in the order of the payload, they are one list (`ownedNames`).  The writer reports
the first name in it that is unfit or that stands there for the second time (`FirstFault`), and
writes if there is none (`FitTogether`); filter, values, count and URLs have no say.

The proof forgets the text: what is left of a writing step is `checkName`, and of a whole run a fold
of it over the list.  A name is judged by those before it, so the induction on the list is from its end.
-/
import OData.Proofs.Payload.Writing

namespace OData.Payload

/-! ## Names and their faults -/

/-- A name of an annotation, with the owner of the annotation. -/
abbrev OwnedName := AnnotationOwner × String

/-- The names on one owner. -/
def namesOn (owner : AnnotationOwner) (annotations : List InstanceAnnotation) : List OwnedName :=
  annotations.map fun a => (owner, a.name)

/-- The names on links, the first of which has the number `index`. -/
def namesOnLinks (index : Nat) : List ReferenceLink → List OwnedName
  | [] => []
  | l :: links => namesOn (.link index) l.annotations ++ namesOnLinks (index + 1) links

/-- The names in a collection: its own, then those on each of its links. -/
def ownedNames (ls : ReferenceLinks) : List OwnedName :=
  namesOn .collection ls.annotations ++ namesOnLinks 0 ls.toList

/-- A name that custom annotations may not have: none at all, or one of the protocol's own. -/
def Unfit (name : String) : Prop := name = "" ∨ reservedNamespace.toList <+: name.toList

/-- Names that can be written together.  The same name on two owners makes two entries. -/
structure FitTogether (names : List OwnedName) : Prop where
  fit : ∀ n ∈ names, ¬ Unfit n.2
  once : names.Nodup

/-- What is wrong with a name behind others.  One that is unfit is not looked up. -/
inductive NameFault (before : List OwnedName) : OwnedName → PayloadError → Prop
  | unfit {owner : AnnotationOwner} {name : String} :
      Unfit name → NameFault before (owner, name) (.unfitName name)
  | repeated {owner : AnnotationOwner} {name : String} :
      ¬ Unfit name → (owner, name) ∈ before →
        NameFault before (owner, name) (.repeatedName ⟨name, owner⟩)

/-- The fault of the first name that has one. -/
def FirstFault (names : List OwnedName) (e : PayloadError) : Prop :=
  ∃ before n after, names = before ++ n :: after ∧ FitTogether before ∧ NameFault before n e

variable {names before after : List OwnedName} {n : OwnedName} {e : PayloadError}

theorem isSome_dropBeginning?_iff : ∀ {head cs : List Char},
    (Text.dropBeginning? head cs).isSome = true ↔ head <+: cs
  | [], cs => by simp [Text.dropBeginning?]
  | _ :: _, [] => by simp [Text.dropBeginning?]
  | h :: hs, c :: cs => by
      rw [Text.dropBeginning?, List.cons_prefix_cons, ← isSome_dropBeginning?_iff]
      split
      · next heq => simp [heq]
      · next hne => simp [hne]

theorem isReserved_iff {name : String} : isReserved name = true ↔ Unfit name := by
  rw [isReserved, Bool.or_eq_true, isSome_dropBeginning?_iff, String.isEmpty_iff]
  exact Iff.rfl

theorem fitTogether_nil : FitTogether [] := ⟨nofun, List.nodup_nil⟩

theorem fitTogether_snoc_iff :
    FitTogether (names ++ [n]) ↔ FitTogether names ∧ ¬ Unfit n.2 ∧ n ∉ names := by
  constructor
  · rintro ⟨hfit, honce⟩
    rw [List.forall_mem_append, List.forall_mem_singleton] at hfit
    rw [List.nodup_append_comm, List.singleton_append, List.nodup_cons] at honce
    exact ⟨⟨hfit.1, honce.2⟩, hfit.2, honce.1⟩
  · rintro ⟨⟨hfit, honce⟩, hunfit, hnew⟩
    refine ⟨List.forall_mem_append.2 ⟨hfit, List.forall_mem_singleton.2 hunfit⟩, ?_⟩
    rw [List.nodup_append_comm, List.singleton_append, List.nodup_cons]
    exact ⟨hnew, honce⟩

/-- A fault is still the first one when more names follow. -/
theorem FirstFault.append (h : FirstFault names e) (more : List OwnedName) :
    FirstFault (names ++ more) e := by
  obtain ⟨before, n, after, rfl, hfit, hfault⟩ := h
  exact ⟨before, n, after ++ more, by simp, hfit, hfault⟩

/-! ## The check of a name -/

/-- What is left of writing an annotation if the text is forgotten. -/
def checkName (seen : SeenNames) (n : OwnedName) : Except PayloadError SeenNames :=
  if isReserved n.2 then .error (.unfitName n.2)
  else (seen.insert n.1 n.2).mapError .repeatedName

/-- The names in `names`, seen in this order. -/
def seenAll (names : List OwnedName) : SeenNames := ⟨names.reverse⟩

theorem seenAll_snoc (names : List OwnedName) (n : OwnedName) :
    seenAll (names ++ [n]) = ⟨n :: (seenAll names).entries⟩ := by
  rw [seenAll, seenAll, List.reverse_append]
  rfl

theorem checkName_of_fit (hunfit : ¬ Unfit n.2) (hnew : n ∉ names) :
    checkName (seenAll names) n = .ok (seenAll (names ++ [n])) := by
  have hentries : (n.1, n.2) ∉ (seenAll names).entries := by
    intro hmem
    exact hnew (List.mem_reverse.1 hmem)
  rw [checkName, if_neg (isReserved_iff.not.2 hunfit), SeenNames.insert_of_not_mem hentries,
    seenAll_snoc]
  rfl

theorem checkName_of_fault (h : NameFault names n e) : checkName (seenAll names) n = .error e := by
  cases h with
  | unfit hunfit => rw [checkName, if_pos (isReserved_iff.2 hunfit)]
  | @repeated owner name hunfit hmem =>
      have hentries : (owner, name) ∈ (seenAll names).entries := List.mem_reverse.2 hmem
      rw [checkName, if_neg (isReserved_iff.not.2 hunfit), SeenNames.insert_of_mem hentries]
      rfl

/-- The check of all names, one behind the other. -/
def checkNames (names : List OwnedName) : Except PayloadError SeenNames :=
  names.foldlM checkName .empty

theorem checkNames_of_fit (h : FitTogether names) : checkNames names = .ok (seenAll names) := by
  induction names using List.reverseRecOn with
  | nil => rfl
  | append_singleton names n ih =>
      obtain ⟨hnames, hunfit, hnew⟩ := fitTogether_snoc_iff.1 h
      have hprefix : names.foldlM checkName .empty = .ok (seenAll names) := ih hnames
      rw [checkNames, List.foldlM_append, hprefix]
      show [n].foldlM checkName (seenAll names) = _
      rw [List.foldlM_cons, checkName_of_fit hunfit hnew]
      rfl

theorem checkNames_of_firstFault (h : FirstFault names e) : checkNames names = .error e := by
  obtain ⟨before, n, after, rfl, hfit, hfault⟩ := h
  have hbefore : before.foldlM checkName .empty = .ok (seenAll before) := checkNames_of_fit hfit
  have hstep : checkName (seenAll before) n = .error e := checkName_of_fault hfault
  rw [checkNames, List.foldlM_append, hbefore]
  show (n :: after).foldlM checkName (seenAll before) = .error e
  rw [List.foldlM_cons, hstep]
  rfl

/-- Either all names are fit, or one of them has the first fault. -/
theorem fitTogether_or_firstFault (names : List OwnedName) :
    FitTogether names ∨ ∃ e, FirstFault names e := by
  induction names using List.reverseRecOn with
  | nil => exact .inl fitTogether_nil
  | append_singleton names n ih =>
      rcases ih with hfit | ⟨e, hfault⟩
      · by_cases hunfit : Unfit n.2
        · exact .inr ⟨_, names, n, [], rfl, hfit, .unfit hunfit⟩
        · by_cases hmem : n ∈ names
          · exact .inr ⟨_, names, n, [], rfl, hfit, .repeated hunfit hmem⟩
          · exact .inl (fitTogether_snoc_iff.2 ⟨hfit, hunfit, hmem⟩)
      · exact .inr ⟨e, hfault.append [n]⟩

/-! ## The writer without its text -/

variable (settings : WriterSettings) {owner : AnnotationOwner} {d : Draft}

/-- What is forgotten step by step is forgotten of the whole. -/
theorem map_bind_eq {ε α α' β β' : Type} {x : Except ε α} {y : Except ε α'} {k : α → Except ε β}
    {k' : α' → Except ε β'} {p : α → α'} {q : β → β'} (hx : x.map p = y)
    (hk : ∀ a, (k a).map q = k' (p a)) : (x >>= k).map q = y >>= k' := by
  subst hx
  cases x with
  | ok a => exact hk a
  | error e => rfl

theorem seen_writeOne (d : Draft) (a : InstanceAnnotation) :
    (writeOne settings owner d a).map Draft.seen = checkName d.seen (owner, a.name) := by
  rw [writeOne, checkName]
  split
  · rfl
  cases d.seen.insert owner a.name with
  | error fault => rfl
  | ok seen =>
      dsimp only
      split
      · rfl
      · rfl

theorem seen_writeAnnotations (d : Draft) (annotations : List InstanceAnnotation) :
    (writeAnnotations settings owner d annotations).map Draft.seen =
      (namesOn owner annotations).foldlM checkName d.seen := by
  induction annotations generalizing d with
  | nil => rfl
  | cons a annotations ih =>
      rw [writeAnnotations, List.foldlM_cons, namesOn, List.map_cons, List.foldlM_cons]
      exact map_bind_eq (seen_writeOne settings d a) ih

theorem seen_writeLinkMembers (d : Draft) (l : ReferenceLink) :
    (writeLinkMembers settings owner d l).map Draft.seen =
      (namesOn owner l.annotations).foldlM checkName d.seen :=
  seen_writeAnnotations settings _ l.annotations

theorem seen_writeLinkItems (index : Nat) (d : Draft) (links : List ReferenceLink) :
    (writeLinkItems settings index d links).map Draft.seen =
      (namesOnLinks index links).foldlM checkName d.seen := by
  induction links generalizing index d with
  | nil => rfl
  | cons l links ih =>
      rw [writeLinkItems, namesOnLinks, List.foldlM_append]
      refine map_bind_eq (seen_writeLinkMembers settings _ l) ?_
      intro d'
      exact ih (index + 1) { d' with writer := d'.writer.endObject }

/-- The outcome of a run: its error, if it has one. -/
def outcome {α : Type} (result : Except PayloadError α) : Except PayloadError Unit :=
  result.map fun _ => ()

theorem outcome_bind_pure {α β : Type} {result : Except PayloadError α} {f : α → β} :
    outcome (result >>= fun a => pure (f a)) = outcome result := by
  cases result <;> rfl

theorem outcome_of_map {α β : Type} {result : Except PayloadError α} {f : α → β}
    {result' : Except PayloadError β} (h : result.map f = result') :
    outcome result = outcome result' := by
  subst h
  cases result <;> rfl

/-- A collection is written if the check of its names passes, and fails as the check does. -/
theorem outcome_writeLinks (ls : ReferenceLinks) :
    outcome (writeLinks settings ls) = outcome (checkNames (ownedNames ls)) := by
  have hlinks : ∀ d, outcome (do
        let d ← writeLinkItems settings 0 d ls.toList
        return (writeNextLink d.writer.endList ls.nextPage).endObject) =
      outcome ((namesOnLinks 0 ls.toList).foldlM checkName d.seen) := by
    intro d
    rw [outcome_bind_pure]
    exact outcome_of_map (seen_writeLinkItems settings 0 d ls.toList)
  have hwhole : outcome (draftLinks settings ls) =
      (namesOn .collection ls.annotations).foldlM checkName .empty >>= fun seen =>
        outcome ((namesOnLinks 0 ls.toList).foldlM checkName seen) :=
    map_bind_eq (seen_writeAnnotations settings _ ls.annotations) fun d =>
      hlinks { d with writer := (d.writer.name value).startList }
  rw [writeLinks, outcome_bind_pure, hwhole, checkNames, ownedNames, List.foldlM_append]
  cases (namesOn .collection ls.annotations).foldlM checkName .empty <;> rfl

/-- The same of a single link, which counts as the first of a list. -/
theorem outcome_writeLink (l : ReferenceLink) :
    outcome (writeLink settings l) = outcome (checkNames (namesOn (.link 0) l.annotations)) := by
  rw [writeLink, outcome_bind_pure, draftLink, outcome_bind_pure]
  exact outcome_of_map (seen_writeLinkMembers settings _ l)

/-! ## The outcome -/

/-- A payload is written if `names` fit together, and otherwise the error is their first fault. -/
structure DecidedBy (names : List OwnedName) (result : Except PayloadError String) : Prop where
  writes : (∃ text, result = .ok text) ↔ FitTogether names
  fails : ∀ e, result = .error e ↔ FirstFault names e

theorem decidedBy_of_outcome {result : Except PayloadError String}
    (h : outcome result = outcome (checkNames names)) : DecidedBy names result := by
  -- Fitting together and having a first fault exclude each other, so two implications make both `iff`s.
  have hok : FitTogether names → ∃ text, result = .ok text := by
    intro hfit
    rw [checkNames_of_fit hfit] at h
    cases result with
    | ok text => exact ⟨text, rfl⟩
    | error e => cases h
  have herror : ∀ e, FirstFault names e → result = .error e := by
    intro e hfault
    rw [checkNames_of_firstFault hfault] at h
    cases result with
    | ok text => cases h
    | error e' =>
        cases h
        rfl
  refine ⟨⟨?_, hok⟩, fun e => ⟨?_, herror e⟩⟩
  · rintro ⟨text, rfl⟩
    rcases fitTogether_or_firstFault names with hfit | ⟨e, hfault⟩
    · exact hfit
    · cases herror e hfault
  · rintro rfl
    rcases fitTogether_or_firstFault names with hfit | ⟨e', hfault⟩
    · obtain ⟨text, htext⟩ := hok hfit
      cases htext
    · cases herror e' hfault
      exact hfault

/-! ## One owner and another -/

theorem owner_of_mem_namesOnLinks {links : List ReferenceLink} {index : Nat}
    (h : n ∈ namesOnLinks index links) : ∃ i, index ≤ i ∧ n.1 = .link i := by
  induction links generalizing index with
  | nil => cases h
  | cons l links ih =>
      rcases List.mem_append.1 h with hhere | hlater
      · obtain ⟨a, -, rfl⟩ := List.mem_map.1 hhere
        exact ⟨index, Nat.le_refl index, rfl⟩
      · obtain ⟨i, hi, howner⟩ := ih hlater
        exact ⟨i, Nat.le_of_succ_le hi, howner⟩

/-- A name comes twice only where it does so on one owner. -/
theorem nodup_namesOn_append_iff {annotations : List InstanceAnnotation} {others : List OwnedName}
    (hothers : ∀ n ∈ others, n.1 ≠ owner) :
    (namesOn owner annotations ++ others).Nodup ↔
      (annotations.map InstanceAnnotation.name).Nodup ∧ others.Nodup := by
  have hnames : namesOn owner annotations =
      (annotations.map InstanceAnnotation.name).map (Prod.mk owner) := by
    rw [List.map_map]
    rfl
  have happart : ∀ n ∈ namesOn owner annotations, ∀ n' ∈ others, n ≠ n' := by
    rintro n hhere _ hthere rfl
    obtain ⟨a, -, rfl⟩ := List.mem_map.1 hhere
    exact hothers _ hthere rfl
  rw [List.nodup_append, hnames, List.nodup_map_iff (Prod.mk_right_injective owner), ← hnames]
  exact ⟨fun h => ⟨h.1, h.2.1⟩, fun h => ⟨h.1, h.2, happart⟩⟩

theorem nodup_namesOnLinks_iff {links : List ReferenceLink} {index : Nat} :
    (namesOnLinks index links).Nodup ↔
      ∀ l ∈ links, (l.annotations.map InstanceAnnotation.name).Nodup := by
  induction links generalizing index with
  | nil => exact iff_of_true List.nodup_nil nofun
  | cons l links ih =>
      have hlater : ∀ n ∈ namesOnLinks (index + 1) links, n.1 ≠ .link index := by
        intro n hn heq
        obtain ⟨i, hi, howner⟩ := owner_of_mem_namesOnLinks hn
        cases heq.symm.trans howner
        exact Nat.not_succ_le_self _ hi
      rw [namesOnLinks, nodup_namesOn_append_iff hlater, ih, List.forall_mem_cons]

theorem nodup_ownedNames_iff {ls : ReferenceLinks} :
    (ownedNames ls).Nodup ↔ (ls.annotations.map InstanceAnnotation.name).Nodup ∧
      ∀ l ∈ ls.toList, (l.annotations.map InstanceAnnotation.name).Nodup := by
  have hlinks : ∀ n ∈ namesOnLinks 0 ls.toList, n.1 ≠ .collection := by
    intro n hn heq
    obtain ⟨i, -, howner⟩ := owner_of_mem_namesOnLinks hn
    cases heq.symm.trans howner
  rw [ownedNames, nodup_namesOn_append_iff hlinks, nodup_namesOnLinks_iff]

/-- Names on different owners have nothing to do with one another. -/
theorem fitTogether_ownedNames_iff {ls : ReferenceLinks} :
    FitTogether (ownedNames ls) ↔ (∀ n ∈ ownedNames ls, ¬ Unfit n.2) ∧
      (ls.annotations.map InstanceAnnotation.name).Nodup ∧
        ∀ l ∈ ls.toList, (l.annotations.map InstanceAnnotation.name).Nodup := by
  constructor
  · rintro ⟨hfit, honce⟩
    exact ⟨hfit, nodup_ownedNames_iff.1 honce⟩
  · rintro ⟨hfit, honce⟩
    exact ⟨hfit, nodup_ownedNames_iff.2 honce⟩

/-- A collection or a link is written if every name of an annotation is fit and stands once on its
owner, and otherwise the error is that of the first name in the order of the payload which is not so.
Two collections, or two links, with the same names in the same places fare alike under any settings. -/
theorem written_or_first_fault (ls : ReferenceLinks) (l : ReferenceLink) :
    DecidedBy (ownedNames ls) (writeLinks settings ls) ∧
      DecidedBy (namesOn (.link 0) l.annotations) (writeLink settings l) ∧
      (FitTogether (ownedNames ls) ↔ (∀ n ∈ ownedNames ls, ¬ Unfit n.2) ∧
        (ls.annotations.map InstanceAnnotation.name).Nodup ∧
          ∀ l ∈ ls.toList, (l.annotations.map InstanceAnnotation.name).Nodup) ∧
      (∀ settings' ls', ownedNames ls' = ownedNames ls →
        outcome (writeLinks settings' ls') = outcome (writeLinks settings ls)) ∧
      ∀ settings' l', namesOn (.link 0) l'.annotations = namesOn (.link 0) l.annotations →
        outcome (writeLink settings' l') = outcome (writeLink settings l) := by
  refine ⟨decidedBy_of_outcome (outcome_writeLinks settings ls),
    decidedBy_of_outcome (outcome_writeLink settings l), fitTogether_ownedNames_iff, ?_, ?_⟩
  · intro settings' ls' hnames
    rw [outcome_writeLinks, outcome_writeLinks, hnames]
  · intro settings' l' hnames
    rw [outcome_writeLink, outcome_writeLink, hnames]

/-- A name that comes twice on the second link, in front of one that is unfit.  The first link has it too,
and none of these annotations would be written. -/
example :
    let a : InstanceAnnotation := ⟨"n.a", .null⟩
    let url : Url := ⟨"urn", none, .rootless "a", none, none⟩
    writeLinks { annotationFilter := .none }
        { links := some [⟨url, [a]⟩, ⟨url, [⟨"odata", .null⟩, a, a, ⟨"", .null⟩]⟩] } =
      .error (.repeatedName ⟨"n.a", .link 1⟩) := by
  decide +kernel

end OData.Payload
