/-
# `OData.Proofs.Payload.Refusals` — what is refused stays refused

A reader goes through a payload once and stops at the first thing that is wrong.  So what it refuses
at some place, a name that an owner has already above all, it refuses whatever comes behind that place:
more members, other faults, or bytes that are no text at all.

Every member of a payload may refuse something, and its value may be cut short by the end of the text.
That these two do not meet is due to the names of the members: each is a string and ends with a mark of
its own, and after a value that is cut short there is no further name (`firm_members`).
-/
import OData.Payload.Read
import OData.Proofs.Json.Endings
import OData.Url.Parse

namespace OData.Payload

open Json Json.Scan

variable (parseUrl : Url.Parser) (settings : ReaderSettings) {room : Nat} {owner : AnnotationOwner}
  {alone : Bool} {seen : SeenNames}

/-! ## Members -/

/-- A check in front of a scan. -/
theorem persists_unless {α : Type} {cut : α → Prop} {c : Prop} [Decidable c] {reason : Refusal}
    {k : Unit → Scan Refusal α} (hk : Persists cut (k ())) :
    Persists cut (if c then refuse reason >>= k else k ()) := by
  split
  · rintro c more _ ⟨⟩
    exact ⟨_, rfl⟩
  · exact hk

theorem persists_readOne (name : String) (annotations : Annotations) :
    Persists (fun _ => True) (readOne settings room owner name seen annotations) := by
  unfold readOne
  refine persists_unless ?_
  cases seen.insert owner name with
  | error fault => exact persists_refuse _
  | ok seen =>
      refine ((steady_scan room).member.after_steady ?_).persists
      intro v
      split
      · exact keeps_pure trivial
      · exact keeps_pure trivial

theorem firm_readUrl (name : String) : Firm (readUrl parseUrl name) := by
  refine firm_anyString.member.after ?_
  intro text
  split
  · exact persists_pure _
  · exact persists_refuse _

theorem persists_readContext (seenContext : Bool) :
    Persists (fun _ => True) (readContext seenContext) := by
  unfold readContext
  exact persists_unless steady_skip.member.persists

/-- A member is what was read last in a draft. -/
theorem persists_draft {α β : Type} {scan : Scan Refusal α} {draft : α → β}
    (h : Persists (fun _ => True) scan) :
    Persists (fun _ => True) (scan >>= fun a => pure (draft a)) :=
  h.bind (fun _ => persists_pure _) fun _ _ => (keeps_pure trivial).atEnd

/-! ## Links -/

theorem persists_readLinkMember (d : LinkDraft) (name : String) :
    Persists (fun _ => True) (readLinkMember parseUrl settings room owner alone d name) := by
  unfold readLinkMember
  split
  · exact persists_unless (persists_draft (firm_readUrl parseUrl name).steady.persists)
  split
  · exact persists_draft (persists_readContext _)
  split
  · exact persists_draft (persists_readOne settings _ _)
  · exact persists_refuse _

theorem persists_finishLink (d : LinkDraft) : Persists (fun _ => True) (d.finish owner) := by
  unfold LinkDraft.finish
  split
  · exact persists_pure _
  · exact persists_refuse _

theorem steady_readLinkObject : Steady (readLinkObject parseUrl settings room owner alone seen) := by
  refine Keeps.located (steady_start_bind ?_ ?_)
  · intro s
    cases s with
    | object =>
        have hinside : ∀ room, Steady (do
            let d ← members (readLinkMember parseUrl settings room owner alone) { seen }
            d.finish owner) :=
          fun room =>
            (firm_members (persists_readLinkMember parseUrl settings) _).after persists_finishLink
        exact (Keeps.objectOpening hinside).persists
    | _ => exact (keeps_mismatch _ _).persists
  · intro x
    exact (keeps_mismatch _ _).atEnd

theorem steady_readLinkItem (state : SeenNames × List ReferenceLink) :
    Steady (readLinkItem parseUrl settings room state) :=
  (steady_readLinkObject parseUrl settings).after_steady fun _ => keeps_pure trivial

theorem steady_readLinkList : Steady (readLinkList parseUrl settings room seen) := by
  refine Keeps.located (steady_start_bind ?_ ?_)
  · intro s
    cases s with
    | list =>
        have hitems : ∀ room, Firm (items (readLinkItem parseUrl settings room) (seen, [])) :=
          fun room => firm_items (fun state => (steady_readLinkItem parseUrl settings state).persists) _
        exact (Keeps.listOpening fun room =>
          (hitems room).after_steady fun _ => keeps_pure trivial).persists
    | _ => exact (keeps_mismatch _ _).persists
  · intro x
    exact (keeps_mismatch _ _).atEnd

/-! ## Collections -/

theorem steady_readCount : Steady (readCount room) := by
  refine Keeps.located (steady_start_bind ?_ ?_)
  · intro s
    cases s with
    | scalar x =>
        dsimp only
        split
        · exact persists_pure _
        · exact (keeps_misfit _).persists
    | list =>
        have hinside : ∀ _ : Nat, Steady (mismatch .list "an integer count" : Scan Refusal Int64) :=
          fun _ => keeps_mismatch _ _
        exact (Keeps.listOpening hinside).persists
    | object =>
        have hinside : ∀ _ : Nat, Steady (mismatch .object "an integer count" : Scan Refusal Int64) :=
          fun _ => keeps_mismatch _ _
        exact (Keeps.objectOpening hinside).persists
  · intro x
    dsimp only
    split
    · exact (keeps_pure trivial).atEnd
    · exact (keeps_misfit _).atEnd

theorem persists_readLinksMember (d : LinksDraft) (name : String) :
    Persists (fun _ => True) (readLinksMember parseUrl settings room d name) := by
  unfold readLinksMember
  split
  · exact persists_draft (persists_readContext _)
  split
  · exact persists_unless (persists_draft steady_readCount.member.persists)
  split
  · exact persists_unless (persists_draft (firm_readUrl parseUrl name).steady.persists)
  split
  · exact persists_unless (persists_draft (steady_readLinkList parseUrl settings).member.persists)
  split
  · exact persists_draft (persists_readOne settings _ _)
  · exact persists_refuse _

theorem persists_finishLinks (d : LinksDraft) : Persists (fun _ => True) d.finish := by
  unfold LinksDraft.finish
  split
  · exact persists_pure _
  · exact persists_refuse _

theorem steady_readLinksObject : Steady (readLinksObject parseUrl settings room) := by
  refine Keeps.located (steady_start_bind ?_ ?_)
  · intro s
    cases s with
    | object =>
        have hinside : ∀ room, Steady (do
            (← members (readLinksMember parseUrl settings room) {}).finish) :=
          fun room =>
            (firm_members (persists_readLinksMember parseUrl settings) _).after persists_finishLinks
        exact (Keeps.objectOpening hinside).persists
    | _ => exact (keeps_mismatch _ _).persists
  · intro x
    exact (keeps_mismatch _ _).atEnd

/-! ## Payloads -/

theorem ofFault_eq_repeatedName {fault : Fault Refusal} {repeated : RepeatedName}
    (h : PayloadError.ofFault fault = .repeatedName repeated) :
    fault = .refusal (.repeatedName repeated) := by
  rcases fault with _ | _ | ⟨_ | _⟩ <;> cases h
  rfl

/-- A name that a reader came upon twice, it comes upon twice in every longer text. -/
theorem repeatedName_append {α : Type} {scan : Scan Refusal α} {bytes : List UInt8}
    {repeated : RepeatedName} (hscan : Persists (fun _ => True) scan)
    (h : (run scan bytes).mapError PayloadError.ofFault = .error (.repeatedName repeated))
    (more : List UInt8) :
    (run scan (bytes ++ more)).mapError PayloadError.ofFault = .error (.repeatedName repeated) := by
  obtain ⟨fault, hrun, hfault⟩ := exists_of_mapError_eq_error h
  rw [ofFault_eq_repeatedName hfault] at hrun
  rw [hscan.run hrun more]
  rfl

/-- Nothing that comes behind a repeated name makes a difference: not a further member, nor a flaw, nor
the end of the text. -/
theorem repeatedName_is_final (settings : ReaderSettings) (bytes more : List UInt8)
    (repeated : RepeatedName) :
    (readLinks parseUrl settings bytes = .error (.repeatedName repeated) →
      readLinks parseUrl settings (bytes ++ more) = .error (.repeatedName repeated)) ∧
    (readLink parseUrl settings bytes = .error (.repeatedName repeated) →
      readLink parseUrl settings (bytes ++ more) = .error (.repeatedName repeated)) := by
  constructor
  · intro h
    exact repeatedName_append (steady_readLinksObject parseUrl settings).persists h more
  · intro h
    have hlink : Persists (fun _ => True)
        (do return (← readLinkObject parseUrl settings deepest (.link 0) true .empty).2) :=
      persists_draft (steady_readLinkObject parseUrl settings).persists
    exact repeatedName_append hlink h more

/-- The text breaks off behind the name that stands there twice, or goes on with a byte that no text has. -/
theorem repeatedName_is_final_at_once :
    let bytes := Text.Utf8.encode "\x7b\"@n.a\":1,\"@n.a\""
    readLinks Url.parse {} bytes = .error (.repeatedName ⟨"n.a", .collection⟩) ∧
      readLinks Url.parse {} (bytes ++ [0xff]) = .error (.repeatedName ⟨"n.a", .collection⟩) ∧
      readLink Url.parse {} bytes = .error (.repeatedName ⟨"n.a", .link 0⟩) ∧
      readLink Url.parse {} (bytes ++ [0xff]) = .error (.repeatedName ⟨"n.a", .link 0⟩) := by
  intro bytes
  have hlinks : readLinks Url.parse {} bytes = .error (.repeatedName ⟨"n.a", .collection⟩) :=
    eq_error_of_map (by decide +kernel)
  have hlink : readLink Url.parse {} bytes = .error (.repeatedName ⟨"n.a", .link 0⟩) :=
    eq_error_of_map (by decide +kernel)
  exact ⟨hlinks, (repeatedName_is_final Url.parse {} bytes [0xff] _).1 hlinks, hlink,
    (repeatedName_is_final Url.parse {} bytes [0xff] _).2 hlink⟩

end OData.Payload
