/-
# `OData.Proofs.Payload.SingleLink` — a link by itself and in a list of one

A link may be a payload by itself, or the only one of a collection.  Both are written by one function
and read by another, in surroundings that differ:

| | by itself | in a list |
| --- | --- | --- |
| containers around its members | 1 | 3 |
| the context | may be a member of the link | is a member of the collection |
| names seen before it | none | those on the collection |
| its number | 0 | its place in the list |

In a collection that holds one link and nothing else, none of this makes a difference, as long as the
members do not name the context and nest at most `deepest - 3` deep.  The members need not be those of a
link, nor need they spell anything: it is enough that they are members by their form (`LinkBody`).

For reading, this is `Agrees` along the structure of the readers; the list and the object around the
link are steps that only one of the two takes.  For writing, both texts are known already, and so are
the names that keep them from being written.
-/
import OData.Proofs.Json.Agreeing
import OData.Proofs.Json.Following
import OData.Proofs.Payload.FirstFault
import OData.Proofs.Payload.Reading
import OData.Url.Parse

namespace OData.Payload

open Json Json.Scan Json.Tree

/-! ## Reading -/

section Reading

variable (parseUrl : Url.Parser) (settings : ReaderSettings) {room room' depth : Nat}
  {owner : AnnotationOwner} {alone alone' : Bool} {seen : SeenNames} {name : String}
  {text m : List UInt8}

/-- Refusals of a name that comes twice are about this owner. -/
def NamesOwner (owner : AnnotationOwner) : Refusal → Prop
  | .repeatedName fault => fault.owner = owner
  | .shape _ => True

theorem namesOwner_shape (owner : AnnotationOwner) (fault : ShapeFault) :
    NamesOwner owner (.shape fault) := trivial

theorem agrees_readOne (annotations : Annotations) (h : ValueForm depth text) (hroom : depth ≤ room)
    (hroom' : depth ≤ room') :
    AgreesBehindName (NamesOwner owner) (readOne settings room owner name seen annotations)
      (readOne settings room' owner name seen annotations) text := by
  intro gap gap' o o' hgap hgap' ho ho'
  unfold readOne
  refine Agrees.check (namesOwner_shape _ _) ?_
  by_cases hseen : (owner, name) ∈ seen.entries
  · rw [SeenNames.insert_of_mem hseen]
    exact agrees_refuse rfl
  · rw [SeenNames.insert_of_not_mem hseen]
    refine ((agreesOn_scan h hroom hroom').member hgap hgap' ho ho').bind fun v => ?_
    split
    · exact agrees_pure _
    · exact agrees_pure _

theorem agrees_readUrl (h : ValueForm depth text) :
    AgreesBehindName (NamesOwner owner) (readUrl parseUrl name) (readUrl parseUrl name) text := by
  refine (agreesOn_anyString h).member.bind fun s o o' => ?_
  split
  · exact agrees_pure _
  · exact agrees_refuse (namesOwner_shape _ _)

/-- Where the context is not named, it does not matter whether it might be. -/
theorem agrees_readLinkMember (d : LinkDraft) (hname : name ≠ context) (h : ValueForm depth text)
    (hroom : depth ≤ room) (hroom' : depth ≤ room') :
    AgreesBehindName (NamesOwner owner) (readLinkMember parseUrl settings room owner alone d name)
      (readLinkMember parseUrl settings room' owner alone' d name) text := by
  intro gap gap' o o' hgap hgap' ho ho'
  unfold readLinkMember
  split
  · exact Agrees.check (namesOwner_shape _ _)
      ((agrees_readUrl parseUrl h hgap hgap' ho ho').bind fun url => agrees_pure _)
  rw [if_neg fun hcontext => hname hcontext.1, if_neg fun hcontext => hname hcontext.1]
  split
  · exact (agrees_readOne settings d.annotations h hroom hroom' hgap hgap' ho ho').bind
      fun r => agrees_pure _
  · exact agrees_refuse (namesOwner_shape _ _)

theorem agrees_finishLink (d : LinkDraft) (o o' : List UInt8) :
    Agrees (NamesOwner owner) (d.finish owner) (d.finish owner) o o o' o' := by
  unfold LinkDraft.finish
  split
  · exact agrees_pure _
  · exact agrees_refuse (namesOwner_shape _ _)

/-- The title of a member that does not name the context. -/
def OtherTitle (title : List UInt8) : Prop := StringForm title ∧ ¬ StringText context title

/-- The members of a link that does not name its context, containers in them nesting at most so deep. -/
def LinkBody (depth : Nat) (m : List UInt8) : Prop :=
  MembersForm OtherTitle (ValueForm depth) true m

/-- What is written for members is a body again, if none of them names the context. -/
theorem linkBody_of_members {members : List (String × Tree)}
    (hcontext : ∀ p ∈ members, p.1 ≠ context) (hprintable : ∀ p ∈ members, p.2.Everywhere IsPrintable)
    (hdepth : ∀ p ∈ members, p.2.depth ≤ depth) :
    LinkBody depth (Text.Utf8.encode (commas (members.map memberText))) := by
  have hspelled := membersSpelledBy_commas fun p hp => spelledBy_compact (hprintable p hp)
  refine membersForm_of_spelledBy hspelled ?_ ?_
  · refine List.forall_mem_map.2 fun p hp title htitle => ⟨StringText.form htitle, ?_⟩
    intro hother
    exact hcontext p hp (StringText.unique htitle hother)
  · refine List.forall_mem_map.2 fun p hp text htext => htext.form ?_
    rw [depth_reread]
    exact hdepth p hp

theorem agrees_readLinkObject (h : LinkBody depth m) (hroom : depth < room) (hroom' : depth < room')
    (o o' : List UInt8) :
    Agrees (NamesOwner owner) (readLinkObject parseUrl settings room owner alone seen)
      (readLinkObject parseUrl settings room' owner alone' seen)
      (Byte.openBrace :: (m ++ Byte.closeBrace :: o)) o
      (Byte.openBrace :: (m ++ Byte.closeBrace :: o')) o' := by
  obtain ⟨room, rfl⟩ : ∃ n, room = n + 1 := ⟨room - 1, by omega⟩
  obtain ⟨room', rfl⟩ : ∃ n, room' = n + 1 := ⟨room' - 1, by omega⟩
  refine (Agrees.after (passes_start_object blank_nil _) (passes_start_object blank_nil _) (.objectOpening ?_)).located
  refine (agrees_members (fun _ htitle => htitle.1) ?_ h _ o o').bind
    fun d => agrees_finishLink d _ _
  intro d name title text htitle hname htext
  refine agrees_readLinkMember parseUrl settings d ?_ htext (by omega) (by omega)
  rintro rfl
  exact htitle.2 hname

/-! ### Payloads -/

/-- The payload of a link with these members. -/
def singleText (m : List UInt8) : List UInt8 :=
  Text.Utf8.encode "\x7b" ++ (m ++ Text.Utf8.encode "\x7d")

/-- The payload of a collection of one link, with these members. -/
def listedText (m : List UInt8) : List UInt8 :=
  Text.Utf8.encode "\x7b\"value\":[" ++ (singleText m ++ Text.Utf8.encode "]\x7d")

theorem singleText_eq (m : List UInt8) :
    singleText m = Byte.openBrace :: (m ++ Byte.closeBrace :: []) := rfl

theorem listedText_eq (m : List UInt8) :
    listedText m = Byte.openBrace :: (Text.Utf8.encode (quoted value) ++ Byte.colon ::
      Byte.openBracket :: Byte.openBrace :: ((m ++ [Byte.closeBrace]) ++ Byte.closeBracket ::
        Byte.closeBrace :: [])) := by
  have hhead : Text.Utf8.encode "\x7b\"value\":[" = Byte.openBrace ::
      (Text.Utf8.encode (quoted value) ++ [Byte.colon, Byte.openBracket]) := by decide
  rw [listedText, hhead, singleText_eq]
  simp only [List.cons_append, List.append_assoc, List.nil_append]
  rfl

/-- What is read of a link that stands alone. -/
def readAlone : Scan Refusal (SeenNames × ReferenceLink) :=
  readLinkObject parseUrl settings deepest (.link 0) true .empty

theorem readLink_eq (bytes : List UInt8) : readLink parseUrl settings bytes =
    (run (readAlone parseUrl settings >>= fun r => pure r.2) bytes).mapError .ofFault :=
  rfl

/-- A link by itself is read as the one item of a list is. -/
theorem agrees_readLinkList (h : LinkBody 124 m) (o : List UInt8) :
    Agrees (NamesOwner (.link 0)) (readAlone parseUrl settings >>= fun r => pure (r.1, [r.2]))
      (readLinkList parseUrl settings 126 .empty) (singleText m) []
      (Byte.openBracket :: Byte.openBrace :: (m ++ [Byte.closeBrace] ++ Byte.closeBracket :: o)) o := by
  have hlink : Agrees (NamesOwner (.link 0)) (readAlone parseUrl settings)
      (readLinkObject parseUrl settings 125 (.link 0) false .empty) (singleText m) []
      (Byte.openBrace :: (m ++ Byte.closeBrace :: Byte.closeBracket :: o)) (Byte.closeBracket :: o) :=
    agrees_readLinkObject parseUrl settings h (by decide) (by decide) [] (Byte.closeBracket :: o)
  have hitem : Agrees (NamesOwner (.link 0))
      (readAlone parseUrl settings >>= fun r => pure (r.1, [r.2]))
      (readLinkItem parseUrl settings 125 (.empty, [])) (singleText m) []
      (Byte.openBrace :: (m ++ [Byte.closeBrace] ++ Byte.closeBracket :: o))
      (Byte.closeBracket :: o) := by
    rw [List.append_assoc]
    exact hlink.bind fun r => agrees_pure (r.1, [r.2])
  refine (Agrees.after_right (passes_start_list blank_nil _) ?_).located_right
  refine .after_right (passes_advance _ _) (.closing_right ?_ (passes_closeList blank_nil))
  exact (hitem.only_item rfl (by decide)).then_right fun r => Passes.pure (r.1, [r.2]) _

theorem agrees_readValue (h : LinkBody 124 m) (o : List UInt8) :
    Agrees (NamesOwner (.link 0))
      (readAlone parseUrl settings >>= fun r => pure { seen := r.1, links := some [r.2] })
      (readLinksMember parseUrl settings 126 {} value) (singleText m) []
      (Byte.colon :: Byte.openBracket :: Byte.openBrace ::
        (m ++ [Byte.closeBrace] ++ Byte.closeBracket :: o)) o := by
  have hmember : Agrees (NamesOwner (.link 0))
      (readAlone parseUrl settings >>= fun r => pure (r.1, [r.2]))
      (member (readLinkList parseUrl settings 126 .empty)) (singleText m) []
      (Byte.colon :: Byte.openBracket :: Byte.openBrace ::
        (m ++ [Byte.closeBrace] ++ Byte.closeBracket :: o)) o :=
    .after_right (passes_colon blank_nil) (agrees_readLinkList parseUrl settings h o)
  exact hmember.then_right fun r => Passes.pure _ o

/-- A link by itself is read as a collection of one link is. -/
theorem agrees_readLinksObject (h : LinkBody 124 m) :
    Agrees (NamesOwner (.link 0)) (readAlone parseUrl settings >>= fun r => pure (.ofLinks [r.2]))
      (readLinksObject parseUrl settings deepest) (singleText m) [] (listedText m) [] := by
  rw [listedText_eq]
  refine (Agrees.after_right (passes_start_object blank_nil _) ?_).located_right
  refine .after_right (passes_advance _ _) (.closing_right ?_ (passes_closeObject blank_nil))
  have hmember := agrees_readValue parseUrl settings h [Byte.closeBrace]
  exact (hmember.only_member (stringText_quoted value)).then_right fun r =>
    Passes.pure (ReferenceLinks.ofLinks [r.2]) _

/-- The same link is read from both payloads, or the reasons why none is read match. -/
theorem readLink_and_readLinks (h : LinkBody 124 m) :
    (∃ l, readLink parseUrl settings (singleText m) = .ok l ∧
      readLinks parseUrl settings (listedText m) = .ok (.ofLinks [l])) ∨
    ∃ fault fault', readLink parseUrl settings (singleText m) = .error (.ofFault fault) ∧
      readLinks parseUrl settings (listedText m) = .error (.ofFault fault') ∧
      fault.Matches (NamesOwner (.link 0)) fault' := by
  have hresults := (agrees_readLinksObject parseUrl settings h).run blank_nil blank_nil
  rw [(follows_map (fun r => ReferenceLinks.ofLinks [r.2]) (readAlone parseUrl settings)).run] at hresults
  rw [readLink_eq, (follows_map (fun r => r.2) (readAlone parseUrl settings)).run, readLinks]
  generalize run (readAlone parseUrl settings) (singleText m) = result,
    run (readLinksObject parseUrl settings deepest) (listedText m) = result' at hresults
  cases result with
  | ok r =>
      cases hresults
      exact .inl ⟨r.2, rfl, rfl⟩
  | error fault =>
      cases hresults with
      | @error _ fault' hmatches => exact .inr ⟨fault, fault', rfl, rfl, hmatches⟩

theorem ofFault_eq_repeatedName_iff {fault : Fault Refusal} {repeated : RepeatedName} :
    PayloadError.ofFault fault = .repeatedName repeated ↔
      fault.refusal? = some (.repeatedName repeated) := by
  rcases fault with _ | _ | ⟨_ | _⟩ <;> simp [PayloadError.ofFault, Fault.refusal?]

/-- The payload of a link alone and the payload of a collection are read alike. -/
structure ReadAlike (alone listed : List UInt8) : Prop where
  links : ∀ l, readLink parseUrl settings alone = .ok l ↔
    readLinks parseUrl settings listed = .ok (.ofLinks [l])
  repeats : ∀ fault, readLink parseUrl settings alone = .error (.repeatedName fault) ↔
    readLinks parseUrl settings listed = .error (.repeatedName fault)
  owner : ∀ fault, readLink parseUrl settings alone = .error (.repeatedName fault) →
    fault.owner = .link 0

theorem readAlike (h : LinkBody 124 m) : ReadAlike parseUrl settings (singleText m) (listedText m) := by
  rcases readLink_and_readLinks parseUrl settings h with
    ⟨l, halone, hlisted⟩ | ⟨fault, fault', halone, hlisted, hmatches⟩
  · refine ⟨fun l' => ?_, fun repeated => ?_, fun repeated => ?_⟩ <;> rw [halone]
    · rw [hlisted]
      constructor
      · rintro ⟨⟩
        rfl
      · rintro ⟨⟩
        rfl
    · rw [hlisted]
      exact iff_of_false nofun nofun
    · exact nofun
  · refine ⟨fun l' => ?_, fun repeated => ?_, fun repeated => ?_⟩ <;> rw [halone]
    · rw [hlisted]
      exact iff_of_false nofun nofun
    · rw [hlisted, Except.error.injEq, Except.error.injEq, ofFault_eq_repeatedName_iff,
        ofFault_eq_repeatedName_iff, hmatches.1]
    · rw [Except.error.injEq, ofFault_eq_repeatedName_iff]
      exact fun hrepeated => hmatches.2 _ hrepeated

end Reading

/-! ## Writing -/

section Writing

variable (settings : WriterSettings) {l : ReferenceLink} {e : PayloadError}

/-- The members of a link as they are written. -/
def writtenMembers (l : ReferenceLink) : String := commas ((linkMembers settings l).map memberText)

theorem compact_object (members : List (String × Tree)) :
    (Tree.object members).compact = "\x7b" ++ commas (members.map memberText) ++ "\x7d" := by
  rw [compact, compactMembers_eq_map]
  rfl

theorem compact_singleTree (l : ReferenceLink) :
    (singleTree settings l).compact = "\x7b\"@odata.context\":" ++ quoted settings.contextUrl ++ "," ++
      writtenMembers settings l ++ "\x7d" := by
  rw [singleTree, compact_object]
  show _ ++ (quoted context ++ ":" ++ quoted settings.contextUrl ++ "," ++
    writtenMembers settings l) ++ _ = _
  have hname : "\x7b" ++ quoted context ++ ":" = "\x7b\"@odata.context\":" := by decide
  rw [← hname]
  simp only [String.append_assoc]

theorem compact_linksTree_ofLinks (l : ReferenceLink) :
    (linksTree settings (.ofLinks [l])).compact =
      "\x7b\"@odata.context\":" ++ quoted settings.contextUrl ++ ",\"value\":[\x7b" ++
        writtenMembers settings l ++ "\x7d]\x7d" := by
  have hlink : (linkTree settings l).compact = "\x7b" ++ writtenMembers settings l ++ "\x7d" :=
    compact_object (linkMembers settings l)
  rw [linksTree, compact_object]
  show _ ++ (quoted context ++ ":" ++ quoted settings.contextUrl ++ "," ++
    (quoted value ++ ":" ++ ("[" ++ (linkTree settings l).compact ++ "]"))) ++ _ = _
  have hcontext : "\x7b" ++ quoted context ++ ":" = "\x7b\"@odata.context\":" := by decide
  have hvalue : "," ++ quoted value ++ ":" ++ "[" ++ "\x7b" = ",\"value\":[\x7b" := by decide
  have hend : "\x7d" ++ "]" ++ "\x7d" = "\x7d]\x7d" := by decide
  rw [← hcontext, ← hvalue, ← hend, hlink]
  simp only [String.append_assoc]

theorem ownedNames_ofLinks (l : ReferenceLink) :
    ownedNames (.ofLinks [l]) = namesOn (.link 0) l.annotations :=
  List.append_nil _

theorem writable_ofLinks_iff : Writable (.ofLinks [l]) ↔ FitNames l.annotations := by
  constructor
  · intro h
    exact h.links l (List.mem_singleton_self l)
  · intro h
    exact ⟨fitNames_nil, fun l' hl' => List.mem_singleton.1 hl' ▸ h⟩

theorem writeLink_eq_error_iff :
    writeLink settings l = .error e ↔ writeLinks settings (.ofLinks [l]) = .error e := by
  have halone := decidedBy_of_outcome (outcome_writeLink settings l)
  have hlisted := decidedBy_of_outcome (outcome_writeLinks settings (.ofLinks [l]))
  rw [ownedNames_ofLinks] at hlisted
  exact (halone.fails e).trans (hlisted.fails e).symm

/-- What keeps a link from being written is one of its names, unfit or repeated. -/
theorem error_of_writeLink (h : writeLink settings l = .error e) :
    (∃ name, e = .unfitName name) ∨ ∃ name, e = .repeatedName ⟨name, .link 0⟩ := by
  have hfault := ((decidedBy_of_outcome (outcome_writeLink settings l)).fails e).1 h
  obtain ⟨before, n, after, hnames, -, hn⟩ := hfault
  have hmem : n ∈ namesOn (.link 0) l.annotations := by
    rw [hnames]
    exact List.mem_append_right _ List.mem_cons_self
  obtain ⟨a, -, rfl⟩ := List.mem_map.1 hmem
  cases hn with
  | unfit _ => exact .inl ⟨a.name, rfl⟩
  | repeated _ _ => exact .inr ⟨a.name, rfl⟩

/-- A link is written alone and as the only one of a collection, or in neither way. -/
structure WrittenAlike (settings : WriterSettings) (l : ReferenceLink) : Prop where
  fails : ∀ e, writeLink settings l = .error e ↔ writeLinks settings (.ofLinks [l]) = .error e
  /-- A name is in the way, and one that comes twice does so on the first link. -/
  errors : ∀ e, writeLink settings l = .error e →
    (∃ name, e = .unfitName name) ∨ ∃ name, e = .repeatedName ⟨name, .link 0⟩
  /-- The texts differ in what stands around the members of the link. -/
  texts : (∃ e, writeLink settings l = .error e) ∨ ∃ m : String,
    writeLink settings l =
      .ok ("\x7b\"@odata.context\":" ++ quoted settings.contextUrl ++ "," ++ m ++ "\x7d") ∧
    writeLinks settings (.ofLinks [l]) =
      .ok ("\x7b\"@odata.context\":" ++ quoted settings.contextUrl ++ ",\"value\":[\x7b" ++ m ++
        "\x7d]\x7d")

theorem writtenAlike (l : ReferenceLink) : WrittenAlike settings l where
  fails _ := writeLink_eq_error_iff settings
  errors _ := error_of_writeLink settings
  texts := by
    by_cases hfit : FitNames l.annotations
    · refine .inr ⟨writtenMembers settings l, ?_⟩
      rw [← compact_singleTree, ← compact_linksTree_ofLinks]
      exact ⟨(writeLink_eq_ok_iff settings).2 ⟨hfit, rfl⟩,
        (writeLinks_eq_ok_iff settings).2 ⟨writable_ofLinks_iff.2 hfit, rfl⟩⟩
    · cases hwrite : writeLink settings l with
      | error e => exact .inl ⟨e, rfl⟩
      | ok text => exact absurd ((writeLink_eq_ok_iff settings).1 hwrite).1 hfit

end Writing

/-! ## One link in two payloads -/

/-- A link by itself and as the only one of a collection.  What keeps it from being written is the same
in both, and so is the text of its members.  Whatever the members are that are read, as long as they do
not name the context, the same link is read from both payloads, or none is; and a name that comes twice
is found in both. -/
theorem link_alone_as_listed (parseUrl : Url.Parser) :
    (∀ settings l, WrittenAlike settings l) ∧
      ∀ settings m, LinkBody 124 m → ReadAlike parseUrl settings (singleText m) (listedText m) :=
  ⟨fun settings => writtenAlike settings, fun settings _ h => readAlike parseUrl settings h⟩

/-- A link with a nested value, and the same with one more annotation, whose name it has already. -/
theorem link_alone_as_listed_nested :
    let a : String × Tree := ("@n.a", .list [.object [("x", .null)]])
    let m := Text.Utf8.encode (commas ([("@odata.id", .string "urn:a"), a].map memberText))
    let m' := Text.Utf8.encode (commas ([("@odata.id", .string "urn:a"), a, a].map memberText))
    LinkBody 124 m ∧ (∃ l, readLink Url.parse {} (singleText m) = .ok l ∧
      readLinks Url.parse {} (listedText m) = .ok (.ofLinks [l])) ∧
    LinkBody 124 m' ∧ readLink Url.parse {} (singleText m') = .error (.repeatedName ⟨"n.a", .link 0⟩) ∧
      readLinks Url.parse {} (listedText m') = .error (.repeatedName ⟨"n.a", .link 0⟩) := by
  intro a m m'
  have hprintable : a.2.Everywhere IsPrintable := by
    simp [a, Everywhere, EverywhereItems, EverywhereMembers, IsPrintable]
  have hdepth : a.2.depth ≤ 124 := by decide
  have hbody : ∀ n, LinkBody 124 (Text.Utf8.encode
      (commas ((("@odata.id", .string "urn:a") :: List.replicate n a).map memberText))) := by
    intro n
    refine linkBody_of_members ?_ ?_ ?_
    · simp [a, context]
    · simp [List.mem_replicate, hprintable, Everywhere, IsPrintable]
    · simp [List.mem_replicate, hdepth, Tree.depth]
  have hm : LinkBody 124 m := hbody 1
  have hm' : LinkBody 124 m' := hbody 2
  obtain ⟨l, halone⟩ : ∃ l, readLink Url.parse {} (singleText m) = .ok l :=
    exists_ok_of_map (by decide +kernel)
  have halone' : readLink Url.parse {} (singleText m') = .error (.repeatedName ⟨"n.a", .link 0⟩) :=
    eq_error_of_map (by decide +kernel)
  exact ⟨hm, ⟨l, halone, (((link_alone_as_listed Url.parse).2 {} m hm).links l).1 halone⟩,
    hm', halone', (((link_alone_as_listed Url.parse).2 {} m' hm').repeats _).1 halone'⟩

end OData.Payload
