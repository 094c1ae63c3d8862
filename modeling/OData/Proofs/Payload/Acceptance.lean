/-
# `OData.Proofs.Payload.Acceptance` — what a reader makes of a JSON text

`JsonText bytes t` says that `bytes` is a text of the tree `t`, in any spelling and with any blanks.
For such a text a reader decides whether `t` is in the grammar of payloads: if it is, the reader
yields what the payload stands for, and if it is not, the reader says so and never calls the
text itself flawed.
-/
import OData.Proofs.Json.Compact
import OData.Proofs.Payload.Reading
import OData.Url.Parse

namespace OData.Payload

open Json Json.Scan

variable {parseUrl : Url.Parser} {bytes : List UInt8} {t : Tree} {links : ReferenceLinks}

/-- A JSON text that a reader has room for is read by its tree. -/
theorem gives_readLinks (parseUrl : Url.Parser) (settings : ReaderSettings) (h : JsonText bytes t)
    (hdepth : t.depth ≤ deepest) :
    Gives (readLinks parseUrl settings bytes)
      (fun links => IsLinks parseUrl t ∧ linksOf? parseUrl settings t = some links)
      fun _ => ¬ IsLinks parseUrl t := by
  obtain ⟨gap, hgap, hahead⟩ := jsonText_iff_ahead.1 h
  exact ((yields_readLinksObject hdepth hahead).run hgap).mapError fun _ hbad => hbad.1

/-- Likewise the text of a link that stands alone. -/
theorem gives_readLink (parseUrl : Url.Parser) (settings : ReaderSettings) (h : JsonText bytes t)
    (hdepth : t.depth ≤ deepest) :
    Gives (readLink parseUrl settings bytes)
      (fun link => IsLink parseUrl true t ∧ linkOf? parseUrl settings t = some link)
      fun _ => ¬ IsLink parseUrl true t := by
  obtain ⟨gap, hgap, hahead⟩ := jsonText_iff_ahead.1 h
  have hlink : Yields (readLinkObject parseUrl settings deepest (.link 0) true .empty) bytes gap
      (LinkRead parseUrl settings (.link 0) true .empty t) (¬ IsLink parseUrl true t) :=
    yields_readLinkObject (fun _ => List.not_mem_nil) hdepth hahead
  refine ((hlink.bind ?_ fun hbad => hbad).run hgap).mapError fun _ hbad => hbad.1
  intro r hr
  exact yields_pure ⟨hr.1, hr.2.1⟩

/-- Every collection of the grammar stands for something. -/
theorem linksOf?_isSome (settings : ReaderSettings) (h : IsLinks parseUrl t) :
    (linksOf? parseUrl settings t).isSome := by
  obtain ⟨ms, rfl, hmembers, hvalue⟩ := h
  obtain ⟨list, hlookup⟩ := exists_lookup_of_mem hvalue
  obtain ⟨items, rfl, hitems⟩ := LinksMember.of_value (hmembers.fits _ (mem_of_lookup hlookup)) rfl
  simpa [linksOf?, hlookup] using linkListOf?_isSome settings hitems

end OData.Payload
