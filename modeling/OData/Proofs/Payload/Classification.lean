/-
# `OData.Proofs.Payload.Classification` — which kind of error a payload deserves

There are two ways for a payload not to be read from memory: it is not a JSON text that the reader can
go over, or it says something that the reader does not want.  The error tells which:

| text | error |
| :-- | :-- |
| a JSON text that is not nested too deep | about the content, if any (`aboutContent`) |
| not one JSON value with blanks around it | an error, of one kind or the other |

The second line is shown from its other side: what a reader accepts is one JSON text
(`ReadsValue.run`), since a reader goes over a value whatever it makes of it.
-/
import OData.Proofs.Json.ValueReaders
import OData.Proofs.Payload.Acceptance

namespace OData

/-- The error is about what a payload says, in a text that is JSON as far as it was read. -/
def PayloadError.aboutContent : PayloadError → Bool
  | repeatedName _ | wrongShape _ | misfit _ _ => true
  | _ => false

/-- The error is about the text, which is not JSON. -/
def PayloadError.aboutText : PayloadError → Bool
  | notJson _ _ => true
  | _ => false

theorem PayloadError.ofFault_classes (fault : Json.Fault Refusal) :
    (ofFault fault).aboutText = fault.isFlaw ∧ (ofFault fault).aboutContent = !fault.isFlaw := by
  rcases fault with _ | _ | ⟨_ | _⟩ <;> exact ⟨rfl, rfl⟩

namespace Payload

open Json Json.Scan

variable (parseUrl : Url.Parser) (settings : ReaderSettings) {room : Nat} {owner : AnnotationOwner}
  {alone : Bool} {seen : SeenNames}

/-! ## What is accepted is JSON -/

theorem readsMember_readOne (name : String) (annotations : Annotations) :
    ReadsMember (readOne settings room owner name seen annotations) := by
  unfold readOne
  refine readsMember_unless ?_
  cases seen.insert owner name with
  | error fault => exact readsMember_refuse _
  | ok seen =>
      refine (readsValue_scan room).member.then_still ?_
      intro v
      split
      · exact still_pure _
      · exact still_pure _

theorem readsMember_readUrl (name : String) : ReadsMember (readUrl parseUrl name) := by
  refine readsValue_anyString.member.then_still ?_
  intro text
  split
  · exact still_pure _
  · exact still_refuse _

theorem readsMember_readContext (seenContext : Bool) : ReadsMember (readContext seenContext) := by
  unfold readContext
  exact readsMember_unless readsValue_skip.member

theorem readsMember_readLinkMember (d : LinkDraft) (name : String) :
    ReadsMember (readLinkMember parseUrl settings room owner alone d name) := by
  unfold readLinkMember
  split
  · exact readsMember_unless ((readsMember_readUrl parseUrl name).then_still fun _ => still_pure _)
  split
  · exact (readsMember_readContext _).then_still fun _ => still_pure _
  split
  · exact (readsMember_readOne settings _ _).then_still fun _ => still_pure _
  · exact readsMember_refuse _

theorem still_finishLink (d : LinkDraft) : Still (d.finish owner) := by
  unfold LinkDraft.finish
  split
  · exact still_pure _
  · exact still_refuse _

theorem readsValue_readLinkObject :
    ReadsValue (readLinkObject parseUrl settings room owner alone seen) := by
  refine ReadsValue.located (ReadsValue.of_start (fun _ => still_misfit _) (readsContainer_misfit _) ?_)
  exact ReadsContainer.objectOpening fun _ =>
    (fills_members (readsMember_readLinkMember parseUrl settings) _).then_still still_finishLink

theorem readsValue_readLinkItem (state : SeenNames × List ReferenceLink) :
    ReadsValue (readLinkItem parseUrl settings room state) :=
  (readsValue_readLinkObject parseUrl settings).then_still fun _ => still_pure _

theorem readsValue_readLinkList : ReadsValue (readLinkList parseUrl settings room seen) := by
  refine ReadsValue.located (ReadsValue.of_start (fun _ => still_misfit _) ?_ (readsContainer_misfit _))
  exact ReadsContainer.listOpening fun _ =>
    (fills_items (readsValue_readLinkItem parseUrl settings) _).then_still fun _ => still_pure _

theorem readsValue_readCount : ReadsValue (readCount room) := by
  refine ReadsValue.located (ReadsValue.of_start ?_ ?_ ?_)
  · intro x
    dsimp only
    split
    · exact still_pure _
    · exact still_misfit _
  · exact ReadsContainer.listOpening fun _ => fills_misfit _
  · exact ReadsContainer.objectOpening fun _ => fills_misfit _

theorem readsMember_readLinksMember (d : LinksDraft) (name : String) :
    ReadsMember (readLinksMember parseUrl settings room d name) := by
  unfold readLinksMember
  split
  · exact (readsMember_readContext _).then_still fun _ => still_pure _
  split
  · exact readsMember_unless (readsValue_readCount.member.then_still fun _ => still_pure _)
  split
  · exact readsMember_unless ((readsMember_readUrl parseUrl name).then_still fun _ => still_pure _)
  split
  · exact readsMember_unless
      ((readsValue_readLinkList parseUrl settings).member.then_still fun _ => still_pure _)
  split
  · exact (readsMember_readOne settings _ _).then_still fun _ => still_pure _
  · exact readsMember_refuse _

theorem still_finishLinks (d : LinksDraft) : Still d.finish := by
  unfold LinksDraft.finish
  split
  · exact still_pure _
  · exact still_refuse _

theorem readsValue_readLinksObject : ReadsValue (readLinksObject parseUrl settings room) := by
  refine ReadsValue.located (ReadsValue.of_start (fun _ => still_misfit _) (readsContainer_misfit _) ?_)
  exact ReadsContainer.objectOpening fun _ =>
    (fills_members (readsMember_readLinksMember parseUrl settings) _).then_still still_finishLinks

theorem run_skip_of_ok {α : Type} {scan : Scan Refusal α} {bytes : List UInt8} {a : α}
    (h : ReadsValue scan) (hread : (run scan bytes).mapError PayloadError.ofFault = .ok a) :
    run (skip : Scan Refusal Unit) bytes = .ok () :=
  h.run (eq_ok_of_mapError hread)

/-! ## What is JSON is not called anything else -/

variable {parseUrl settings} {bytes : List UInt8} {t : Tree} {e : PayloadError}

theorem aboutContent_of_yields {α : Type} {scan : Scan Refusal α} {good : α → Prop} {bad : Prop}
    {gap : List UInt8} (h : Yields scan bytes gap good bad) (hgap : Blank gap)
    (he : (run scan bytes).mapError PayloadError.ofFault = .error e) : e.aboutContent = true := by
  obtain ⟨fault, hrun, rfl⟩ := exists_of_mapError_eq_error he
  have hgives := h.run hgap
  rw [hrun] at hgives
  rw [(PayloadError.ofFault_classes fault).2, hgives.2]
  rfl

theorem classified_of_run {α : Type} {scan : Scan Refusal α}
    (he : (run scan bytes).mapError PayloadError.ofFault = .error e) :
    e.aboutContent = true ∨ e.aboutText = true := by
  obtain ⟨fault, -, rfl⟩ := exists_of_mapError_eq_error he
  obtain ⟨htext, hcontent⟩ := PayloadError.ofFault_classes fault
  rw [htext, hcontent]
  cases fault.isFlaw
  · exact .inl rfl
  · exact .inr rfl

/-- The error of a JSON text within the limits is about its content; what is accepted is one JSON text with
blanks around it; and reading from memory has no errors but those about the content and the text. -/
theorem errors_tell_content_from_text (parseUrl : Url.Parser) (settings : ReaderSettings)
    (bytes : List UInt8) :
    ((∃ t, JsonText bytes t ∧ t.depth ≤ deepest) → ∀ e,
      readLinks parseUrl settings bytes = .error e ∨ readLink parseUrl settings bytes = .error e →
        e.aboutContent = true) ∧
    ((∃ ls, readLinks parseUrl settings bytes = .ok ls) ∨
        (∃ l, readLink parseUrl settings bytes = .ok l) →
      run (skip : Scan Refusal Unit) bytes = .ok ()) ∧
    ∀ e, readLinks parseUrl settings bytes = .error e ∨ readLink parseUrl settings bytes = .error e →
      e.aboutContent = true ∨ e.aboutText = true := by
  refine ⟨?_, ?_, ?_⟩
  · rintro ⟨t, htext, hdepth⟩ e he
    obtain ⟨gap, hgap, hahead⟩ := jsonText_iff_ahead.1 htext
    rcases he with he | he
    · exact aboutContent_of_yields (yields_readLinksObject hdepth hahead) hgap he
    · have hlink : Yields (readLinkObject parseUrl settings deepest (.link 0) true .empty) bytes gap
          (LinkRead parseUrl settings (.link 0) true .empty t) (¬ IsLink parseUrl true t) :=
        yields_readLinkObject (fun _ => List.not_mem_nil) hdepth hahead
      have hread : Yields
          (do return (← readLinkObject parseUrl settings deepest (.link 0) true .empty).2) bytes gap
          (fun _ => True) (¬ IsLink parseUrl true t) :=
        hlink.bind (fun _ _ => yields_pure trivial) fun h => h
      exact aboutContent_of_yields hread hgap he
  · rintro (⟨ls, hread⟩ | ⟨l, hread⟩)
    · exact run_skip_of_ok (readsValue_readLinksObject parseUrl settings) hread
    · refine run_skip_of_ok ?_ hread
      exact (readsValue_readLinkObject parseUrl settings).then_still fun _ => still_pure _
  · rintro e (he | he)
    · exact classified_of_run he
    · exact classified_of_run he

/-- A value of the wrong kind in a JSON text, and a text that is accepted, with blanks behind it. -/
theorem errors_tell_content_from_text_misfit :
    let wrong := Text.Utf8.encode "\x7b\"value\":1\x7d"
    let right := Text.Utf8.encode "\x7b\"value\":[]\x7d \n"
    (∃ t, JsonText wrong t ∧ t.depth ≤ deepest) ∧
      (∃ e, readLinks Url.parse {} wrong = .error e ∧ e.aboutContent = true) ∧
      (∃ ls, readLinks Url.parse {} right = .ok ls) ∧ run (skip : Scan Refusal Unit) right = .ok () := by
  intro wrong right
  have htext : JsonText wrong (.object [("value", .integer 1)]) := by
    have hcompact : Text.Utf8.encode (Tree.object [("value", .integer 1)]).compact = wrong := by
      decide +kernel
    rw [← hcompact]
    exact Tree.jsonText_compact (by simp [Tree.Everywhere, Tree.EverywhereMembers, Tree.IsPrintable])
  have hread : readLinks Url.parse {} wrong =
      .error (.misfit (.wrongType (.integer 1) "an array of entity reference links")
        (some ⟨1, 10⟩)) :=
    eq_error_of_map (by decide +kernel)
  have haccept : ∃ ls, readLinks Url.parse {} right = .ok ls := exists_ok_of_map (by decide +kernel)
  obtain ⟨hcontent, -, -⟩ := errors_tell_content_from_text Url.parse {} wrong
  obtain ⟨-, hone, -⟩ := errors_tell_content_from_text Url.parse {} right
  have hwrong : ∃ t, JsonText wrong t ∧ t.depth ≤ deepest := ⟨_, htext, by decide⟩
  exact ⟨hwrong, ⟨_, hread, hcontent hwrong _ (.inl hread)⟩, haccept, hone (.inl haccept)⟩

end Payload

end OData
