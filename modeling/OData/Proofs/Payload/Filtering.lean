/-
# `OData.Proofs.Payload.Filtering` — reading with a filter

A filter has no part in what is checked, in what counts as seen, or in how much of the text is taken.
So a reader with a filter goes in step with one without (`Follows`), and at every point the state of
the first is that of the second with the annotations left out which the filter does not accept.  At
the end the same is true of the collections, and a payload that the one turns down the other turns
down with the same error.
-/
import OData.Payload.Read
import OData.Proofs.Json.Following

namespace OData

/-- The annotations that the filter accepts. -/
def AnnotationFilter.keep (f : AnnotationFilter) (annotations : List InstanceAnnotation) :
    List InstanceAnnotation :=
  annotations.filter fun a => f.accepts a.name

theorem AnnotationFilter.keep_reverse (f : AnnotationFilter) (annotations : List InstanceAnnotation) :
    (f.keep annotations).reverse = f.keep annotations.reverse :=
  List.filter_reverse.symm

/-- The link without the annotations that the filter does not accept. -/
def ReferenceLink.prune (f : AnnotationFilter) (l : ReferenceLink) : ReferenceLink :=
  { l with annotations := f.keep l.annotations }

/-- The collection without the annotations, on itself and on its links, that the filter does not accept. -/
def ReferenceLinks.prune (f : AnnotationFilter) (ls : ReferenceLinks) : ReferenceLinks :=
  { ls with links := ls.links.map (List.map (ReferenceLink.prune f))
            annotations := f.keep ls.annotations }

/-- The same settings without a filter. -/
def ReaderSettings.unfiltered (settings : ReaderSettings) : ReaderSettings :=
  { settings with annotationFilter := .all }

namespace Payload

open Json Json.Scan

variable (parseUrl : Url.Parser) (settings : ReaderSettings) {room : Nat} {owner : AnnotationOwner}
  {alone : Bool} {seen : SeenNames} {name : String}

/-! ## Annotations -/

theorem follows_readOne (annotations : Annotations) :
    Follows (fun r => (r.1, settings.annotationFilter.keep r.2))
      (readOne settings room owner name seen (settings.annotationFilter.keep annotations))
      (readOne settings.unfiltered room owner name seen annotations) := by
  unfold readOne
  refine Follows.check ?_
  cases seen.insert owner name with
  | error fault => exact follows_refuse _
  | ok seen =>
      refine Follows.after ?_
      intro v
      have hall : settings.unfiltered.annotationFilter.accepts name = true :=
        AnnotationFilter.accepts_all name
      have hvalue : annotationValue settings.unfiltered v = annotationValue settings v := rfl
      rw [if_pos hall, hvalue]
      by_cases haccepts : settings.annotationFilter.accepts name = true
      · have hkeep : settings.annotationFilter.keep (⟨name, annotationValue settings v⟩ :: annotations) =
            ⟨name, annotationValue settings v⟩ :: settings.annotationFilter.keep annotations :=
          List.filter_cons_of_pos haccepts
        rw [if_pos haccepts, ← hkeep]
        exact follows_pure (seen, _)
      · have hkeep : settings.annotationFilter.keep (⟨name, annotationValue settings v⟩ :: annotations) =
            settings.annotationFilter.keep annotations :=
          List.filter_cons_of_neg haccepts
        rw [if_neg haccepts, ← hkeep]
        exact follows_pure (seen, _)

/-! ## Links -/

/-- A link as far as it has been read, without the annotations that the filter does not accept. -/
def LinkDraft.prune (f : AnnotationFilter) (d : LinkDraft) : LinkDraft :=
  { d with annotations := f.keep d.annotations }

theorem follows_readLinkMember (d : LinkDraft) :
    Follows (LinkDraft.prune settings.annotationFilter)
      (readLinkMember parseUrl settings room owner alone (d.prune settings.annotationFilter) name)
      (readLinkMember parseUrl settings.unfiltered room owner alone d name) := by
  unfold readLinkMember
  split
  · exact Follows.check (Follows.after fun _ => follows_pure _)
  split
  · exact Follows.after fun _ => follows_pure _
  split
  · exact (follows_readOne settings d.annotations).bind fun _ => follows_pure _
  · exact follows_refuse _

theorem follows_finishLink (d : LinkDraft) :
    Follows (fun r => (r.1, r.2.prune settings.annotationFilter))
      ((d.prune settings.annotationFilter).finish owner) (d.finish owner) := by
  obtain ⟨seen, seenContext, url, annotations⟩ := d
  cases url with
  | none => exact follows_refuse _
  | some url =>
      simp only [LinkDraft.finish, LinkDraft.prune, AnnotationFilter.keep_reverse]
      exact follows_pure (seen, ReferenceLink.mk url annotations.reverse)

theorem follows_readLinkObject :
    Follows (fun r => (r.1, r.2.prune settings.annotationFilter))
      (readLinkObject parseUrl settings room owner alone seen)
      (readLinkObject parseUrl settings.unfiltered room owner alone seen) := by
  refine (Follows.after ?_).located
  intro s
  cases s with
  | object =>
      refine Follows.opening ?_
      intro room
      exact (Follows.members (fun d name => follows_readLinkMember parseUrl settings d) { seen }).bind
        (follows_finishLink settings)
  | _ => exact follows_misfit _

/-- The index of a link is that of the links in front of it, however few annotations they keep. -/
theorem follows_readLinkItem (state : SeenNames × List ReferenceLink) :
    Follows (fun r => (r.1, r.2.map (ReferenceLink.prune settings.annotationFilter)))
      (readLinkItem parseUrl settings room
        (state.1, state.2.map (ReferenceLink.prune settings.annotationFilter)))
      (readLinkItem parseUrl settings.unfiltered room state) := by
  unfold readLinkItem
  dsimp only
  rw [List.length_map]
  exact (follows_readLinkObject parseUrl settings).bind fun r => follows_pure (r.1, r.2 :: state.2)

theorem follows_readLinkList :
    Follows (fun r => (r.1, r.2.map (ReferenceLink.prune settings.annotationFilter)))
      (readLinkList parseUrl settings room seen)
      (readLinkList parseUrl settings.unfiltered room seen) := by
  refine (Follows.after ?_).located
  intro s
  cases s with
  | list =>
      refine Follows.opening ?_
      intro room
      refine (Follows.items (follows_readLinkItem parseUrl settings) (seen, [])).bind ?_
      rintro ⟨seen, links⟩
      dsimp only
      rw [← List.map_reverse]
      exact follows_pure (seen, links.reverse)
  | _ => exact follows_misfit _

/-! ## Collections -/

/-- A collection as far as it has been read, without the annotations that the filter does not accept. -/
def LinksDraft.prune (f : AnnotationFilter) (d : LinksDraft) : LinksDraft :=
  { d with links := d.links.map (List.map (ReferenceLink.prune f))
           annotations := f.keep d.annotations }

theorem follows_readLinksMember (d : LinksDraft) :
    Follows (LinksDraft.prune settings.annotationFilter)
      (readLinksMember parseUrl settings room (d.prune settings.annotationFilter) name)
      (readLinksMember parseUrl settings.unfiltered room d name) := by
  unfold readLinksMember
  split
  · exact Follows.after fun _ => follows_pure _
  split
  · exact Follows.check (Follows.after fun _ => follows_pure _)
  split
  · exact Follows.check (Follows.after fun _ => follows_pure _)
  split
  · have hpopulated : (d.prune settings.annotationFilter).links.isSome = d.links.isSome :=
      Option.isSome_map
    rw [hpopulated]
    exact Follows.check ((follows_readLinkList parseUrl settings).member.bind fun _ => follows_pure _)
  split
  · exact (follows_readOne settings d.annotations).bind fun _ => follows_pure _
  · exact follows_refuse _

theorem follows_finishLinks (d : LinksDraft) :
    Follows (ReferenceLinks.prune settings.annotationFilter)
      (d.prune settings.annotationFilter).finish d.finish := by
  obtain ⟨seen, seenContext, count, nextPage, links, annotations⟩ := d
  cases links with
  | none => exact follows_refuse _
  | some links =>
      simp only [LinksDraft.finish, LinksDraft.prune, AnnotationFilter.keep_reverse]
      exact follows_pure _

theorem follows_readLinksObject :
    Follows (ReferenceLinks.prune settings.annotationFilter) (readLinksObject parseUrl settings room)
      (readLinksObject parseUrl settings.unfiltered room) := by
  refine (Follows.after ?_).located
  intro s
  cases s with
  | object =>
      refine Follows.opening ?_
      intro room
      exact (Follows.members (fun d name => follows_readLinksMember parseUrl settings d) {}).bind
        (follows_finishLinks settings)
  | _ => exact follows_misfit _

/-! ## Payloads -/

theorem map_mapError {ε ε' α β : Type} (result : Except ε α) (f : α → β) (g : ε → ε') :
    (result.map f).mapError g = (result.mapError g).map f := by
  cases result <;> rfl

/-- Reading with a filter is reading without one and leaving out, on the collection and on each link,
the annotations that the filter does not accept; what is turned down without a filter is turned down
with it, and with the same error. -/
theorem readLinks_prunes_unfiltered (bytes : List UInt8) :
    readLinks parseUrl settings bytes =
        (readLinks parseUrl settings.unfiltered bytes).map
          (ReferenceLinks.prune settings.annotationFilter) ∧
      readLink parseUrl settings bytes =
        (readLink parseUrl settings.unfiltered bytes).map
          (ReferenceLink.prune settings.annotationFilter) := by
  have hlink : Follows (ReferenceLink.prune settings.annotationFilter)
      (do return (← readLinkObject parseUrl settings deepest (.link 0) true .empty).2)
      (do return (← readLinkObject parseUrl settings.unfiltered deepest (.link 0) true .empty).2) :=
    (follows_readLinkObject parseUrl settings).bind fun r => follows_pure r.2
  constructor
  · rw [readLinks, readLinks, (follows_readLinksObject parseUrl settings).run bytes, map_mapError]
  · rw [readLink, readLink, hlink.run bytes, map_mapError]

end Payload

end OData
