/-
# `OData.Proofs.Payload.Pruning` — writing with a filter

What a filter leaves out is checked like everything else and then not written.  So of a collection that can
be written, the payload under a filter is the payload without one of the collection that has been
pruned: on itself and on each link, the annotations are gone which the filter does not accept.

The two runs do not go in step.  The one has names among those it has seen that the other never comes
upon, and a name that is left out may come twice only in the first.  They are compared by what is
written: the members of a pruned owner are those that are left of the members of the owner.
-/
import OData.Proofs.Payload.Filtering
import OData.Proofs.Payload.Written

namespace OData

/-- The same settings without a filter. -/
def WriterSettings.unfiltered (settings : WriterSettings) : WriterSettings :=
  { settings with annotationFilter := .all }

namespace Payload

open Json

variable (settings : WriterSettings)

/-! ## Trees -/

theorem filtered_unfiltered (annotations : List InstanceAnnotation) :
    filtered settings.unfiltered annotations = annotations :=
  List.filter_eq_self.2 fun a _ => AnnotationFilter.accepts_all a.name

/-- The members of what is left are what is left of the members. -/
theorem annotationMembers_keep (annotations : List InstanceAnnotation) :
    annotationMembers settings.unfiltered (settings.annotationFilter.keep annotations) =
      annotationMembers settings annotations := by
  rw [annotationMembers, filtered_unfiltered]
  rfl

theorem linkMembers_prune (l : ReferenceLink) :
    linkMembers settings.unfiltered (l.prune settings.annotationFilter) = linkMembers settings l := by
  rw [linkMembers, ReferenceLink.prune, annotationMembers_keep, linkMembers]

theorem singleTree_prune (l : ReferenceLink) :
    singleTree settings.unfiltered (l.prune settings.annotationFilter) = singleTree settings l := by
  rw [singleTree, linkMembers_prune, singleTree]
  rfl

theorem toList_prune (f : AnnotationFilter) (ls : ReferenceLinks) :
    (ls.prune f).toList = ls.toList.map (ReferenceLink.prune f) := by
  obtain ⟨links, count, nextPage, annotations⟩ := ls
  cases links <;> rfl

theorem linksTree_prune (ls : ReferenceLinks) :
    linksTree settings.unfiltered (ls.prune settings.annotationFilter) = linksTree settings ls := by
  have hlinks : (ls.prune settings.annotationFilter).toList.map (linkTree settings.unfiltered) =
      ls.toList.map (linkTree settings) := by
    rw [toList_prune, List.map_map]
    exact List.map_congr_left fun l _ => congrArg Tree.object (linkMembers_prune settings l)
  have hannotations : annotationMembers settings.unfiltered
      (ls.prune settings.annotationFilter).annotations = annotationMembers settings ls.annotations :=
    annotationMembers_keep settings ls.annotations
  rw [linksTree, linksMembers, trailingMembers, hlinks, hannotations]
  rfl

/-! ## Names -/

/-- What is fit to be written is fit when some of it is gone. -/
theorem FitNames.prune {annotations : List InstanceAnnotation} (h : FitNames annotations)
    (f : AnnotationFilter) : FitNames (f.keep annotations) :=
  h.keep { annotationFilter := f }

theorem Writable.prune {ls : ReferenceLinks} (h : Writable ls) (f : AnnotationFilter) :
    Writable (ls.prune f) where
  collection := h.collection.prune f
  links := by
    rw [toList_prune, List.forall_mem_map]
    exact fun l hl => (h.links l hl).prune f

/-! ## Payloads -/

/-- Of a collection or a link that is written without a filter, the same text is written with the filter
as without it when the annotations are gone that the filter does not accept. -/
theorem writes_pruned_unfiltered :
    (∀ ls, (∃ text, writeLinks settings.unfiltered ls = .ok text) →
      ∃ text, writeLinks settings ls = .ok text ∧
        writeLinks settings.unfiltered (ls.prune settings.annotationFilter) = .ok text) ∧
    ∀ l, (∃ text, writeLink settings.unfiltered l = .ok text) →
      ∃ text, writeLink settings l = .ok text ∧
        writeLink settings.unfiltered (l.prune settings.annotationFilter) = .ok text := by
  constructor
  · rintro ls ⟨_, hwritten⟩
    have hwritable : Writable ls := ((writeLinks_eq_ok_iff _).1 hwritten).1
    refine ⟨(linksTree settings ls).compact, (writeLinks_eq_ok_iff _).2 ⟨hwritable, rfl⟩, ?_⟩
    refine (writeLinks_eq_ok_iff _).2 ⟨hwritable.prune _, ?_⟩
    rw [linksTree_prune]
  · rintro l ⟨_, hwritten⟩
    have hfit : FitNames l.annotations := ((writeLink_eq_ok_iff _).1 hwritten).1
    refine ⟨(singleTree settings l).compact, (writeLink_eq_ok_iff _).2 ⟨hfit, rfl⟩, ?_⟩
    refine (writeLink_eq_ok_iff _).2 ⟨hfit.prune _, ?_⟩
    rw [singleTree_prune]

/-- Annotations left out in front of others, between them and behind them, on a collection and on its
links. -/
theorem writes_pruned_unfiltered_mixed :
    let settings : WriterSettings := { contextUrl := "c", annotationFilter := ⟨[⟨.under "n", false⟩]⟩ }
    let url : Url := ⟨"urn", none, .rootless "a", none, none⟩
    let l : ReferenceLink := ⟨url, [⟨"m.b", .null⟩, ⟨"n.a", .int64 5⟩, ⟨"m.c", .null⟩]⟩
    let ls : ReferenceLinks := { links := some [l], annotations := [⟨"n.b", .null⟩, ⟨"m.b", .null⟩] }
    let listed := "\x7b\"@odata.context\":\"c\",\"@n.b\":null,\"value\":[\x7b\"@odata.id\":\"urn:a\"," ++
      "\"@n.a\":5\x7d]\x7d"
    let single := "\x7b\"@odata.context\":\"c\",\"@odata.id\":\"urn:a\",\"@n.a\":5\x7d"
    ((∃ text, writeLinks settings.unfiltered ls = .ok text) ∧
      ∃ text, writeLink settings.unfiltered l = .ok text) ∧
    writeLinks settings.unfiltered (ls.prune settings.annotationFilter) = .ok listed ∧
      writeLink settings.unfiltered (l.prune settings.annotationFilter) = .ok single := by
  intro settings url l ls listed single
  have hlisted : writeLinks settings ls = .ok listed := by decide +kernel
  have hsingle : writeLink settings l = .ok single := by decide +kernel
  have hlinks : ∃ text, writeLinks settings.unfiltered ls = .ok text :=
    ⟨_, (writeLinks_eq_ok_iff _).2 ⟨((writeLinks_eq_ok_iff settings).1 hlisted).1, rfl⟩⟩
  have hlink : ∃ text, writeLink settings.unfiltered l = .ok text :=
    ⟨_, (writeLink_eq_ok_iff _).2 ⟨((writeLink_eq_ok_iff settings).1 hsingle).1, rfl⟩⟩
  obtain ⟨text, htext, hpruned⟩ := (writes_pruned_unfiltered settings).1 ls hlinks
  obtain ⟨text', htext', hpruned'⟩ := (writes_pruned_unfiltered settings).2 l hlink
  cases htext.symm.trans hlisted
  cases htext'.symm.trans hsingle
  exact ⟨⟨hlinks, hlink⟩, hpruned, hpruned'⟩

end Payload

end OData
