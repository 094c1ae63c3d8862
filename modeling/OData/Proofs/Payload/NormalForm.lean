/-
# `OData.Proofs.Payload.NormalForm` — what was read can be written

The reader's checks are all that the writer asks for.  Whatever the bytes, a collection that was read
is populated, the names of annotations on each owner are fit, and their values are settled and
nest no deeper than the reader went (`Orderly`).  So it can be written, and under settings that ask
for nothing else it is read as itself: one pass of reading and writing is a normal form.
-/
import OData.Proofs.Payload.RoundTrip
import OData.Proofs.Value.Accepted

namespace OData.Payload

open Json Json.Scan

variable {parseUrl : Url.Parser} {settings : ReaderSettings} {owner : AnnotationOwner} {room : Nat}
  {seen seen' : SeenNames} {annotations : List InstanceAnnotation}

/-! ## Annotations -/

/-- Annotations of one owner as they are read where there is room for so many containers. -/
structure Orderly (settings : ReaderSettings) (room : Nat) (annotations : List InstanceAnnotation) :
    Prop where
  fit : FitNames annotations
  accepted : ∀ a ∈ annotations, settings.annotationFilter.accepts a.name = true
  settled : ∀ a ∈ annotations, a.value.Settled settings.ieee754Compatible
  nests : ∀ a ∈ annotations, a.value.toTree.depth ≤ room

/-- The names in `seen` are names in `seen'`. -/
abbrev Grows (seen seen' : SeenNames) : Prop := ∀ e ∈ seen.entries, e ∈ seen'.entries

/-- Annotations that are orderly, with names that count as seen on their owner. -/
structure OrderlySoFar (settings : ReaderSettings) (room : Nat) (owner : AnnotationOwner)
    (seen : SeenNames) (annotations : List InstanceAnnotation) : Prop where
  orderly : Orderly settings room annotations
  seen : ∀ a ∈ annotations, (owner, a.name) ∈ seen.entries

theorem Orderly.nil (settings : ReaderSettings) (room : Nat) : Orderly settings room [] :=
  ⟨fitNames_nil, nofun, nofun, nofun⟩

theorem Orderly.reverse (h : Orderly settings room annotations) :
    Orderly settings room annotations.reverse where
  fit := by
    refine ⟨?_, ?_⟩
    · intro a ha
      exact h.fit.unreserved a (List.mem_reverse.1 ha)
    · rw [List.map_reverse]
      exact List.nodup_reverse.2 h.fit.distinct
  accepted a ha := h.accepted a (List.mem_reverse.1 ha)
  settled a ha := h.settled a (List.mem_reverse.1 ha)
  nests a ha := h.nests a (List.mem_reverse.1 ha)

theorem Orderly.cons {a : InstanceAnnotation} (h : Orderly settings room annotations)
    (hfit : FitNames (a :: annotations)) (haccepted : settings.annotationFilter.accepts a.name = true)
    (hsettled : a.value.Settled settings.ieee754Compatible) (hnests : a.value.toTree.depth ≤ room) :
    Orderly settings room (a :: annotations) where
  fit := hfit
  accepted := List.forall_mem_cons.2 ⟨haccepted, h.accepted⟩
  settled := List.forall_mem_cons.2 ⟨hsettled, h.settled⟩
  nests := List.forall_mem_cons.2 ⟨hnests, h.nests⟩

theorem OrderlySoFar.nil (settings : ReaderSettings) (room : Nat) (owner : AnnotationOwner)
    (seen : SeenNames) : OrderlySoFar settings room owner seen [] :=
  ⟨Orderly.nil settings room, nofun⟩

theorem OrderlySoFar.grow (h : OrderlySoFar settings room owner seen annotations)
    (hgrows : Grows seen seen') : OrderlySoFar settings room owner seen' annotations :=
  ⟨h.orderly, fun a ha => hgrows _ (h.seen a ha)⟩

theorem settled_annotationValue (settings : ReaderSettings) {v : Value} (h : v.Accepted room) :
    (annotationValue settings v).Settled settings.ieee754Compatible ∧
      (annotationValue settings v).toTree.depth ≤ room := by
  unfold annotationValue
  split
  · next hieee =>
      rw [hieee, Value.depth_toTree_restore]
      exact ⟨h.settled.restore, h.nests⟩
  · next hplain =>
      rw [Bool.eq_false_iff.2 hplain]
      exact ⟨h.settled, h.nests⟩

theorem ensures_readOne {name : String} (h : OrderlySoFar settings room owner seen annotations) :
    Ensures (readOne settings room owner name seen annotations) fun r =>
      OrderlySoFar settings room owner r.1 r.2 ∧ Grows seen r.1 := by
  unfold readOne
  refine ensures_unless ?_
  intro hreserved
  by_cases hseen : (owner, name) ∈ seen.entries
  · rw [SeenNames.insert_of_mem hseen]
    exact ensures_refuse
  rw [SeenNames.insert_of_not_mem hseen]
  have hgrows : Grows seen ⟨(owner, name) :: seen.entries⟩ := by
    intro e he
    exact List.mem_cons_of_mem _ he
  refine (Value.ensures_scan room).member.bind ?_
  intro v hv
  obtain ⟨hsettled, hnests⟩ := settled_annotationValue settings hv
  split
  · next haccepts =>
      refine Ensures.pure ⟨⟨h.orderly.cons ?_ haccepts hsettled hnests, ?_⟩, hgrows⟩
      · have hnew : name ∉ annotations.map InstanceAnnotation.name := by
          intro hmem
          obtain ⟨a, ha, rfl⟩ := List.mem_map.1 hmem
          exact hseen (h.seen a ha)
        exact fitNames_cons_iff.2 ⟨Bool.eq_false_iff.2 hreserved, hnew, h.orderly.fit⟩
      · exact List.forall_mem_cons.2 ⟨List.mem_cons_self, (h.grow hgrows).seen⟩
  · exact Ensures.pure ⟨h.grow hgrows, hgrows⟩

/-! ## Links -/

theorem ensures_readLinkMember {alone : Bool} {d : LinkDraft} {name : String}
    (h : OrderlySoFar settings room owner d.seen d.annotations ∧ Grows seen d.seen) :
    Ensures (readLinkMember parseUrl settings room owner alone d name) fun d' =>
      OrderlySoFar settings room owner d'.seen d'.annotations ∧ Grows seen d'.seen := by
  unfold readLinkMember
  split
  · exact ensures_unless fun _ => Ensures.after fun _ => Ensures.pure h
  split
  · exact Ensures.after fun _ => Ensures.pure h
  split
  · refine (ensures_readOne h.1).bind ?_
    intro r hr
    refine Ensures.pure ⟨hr.1, ?_⟩
    intro e he
    exact hr.2 e (h.2 e he)
  · exact ensures_refuse

theorem ensures_readLinkObject {alone : Bool} :
    Ensures (readLinkObject parseUrl settings (room + 1) owner alone seen) fun r =>
      Orderly settings room r.2.annotations ∧ Grows seen r.1 := by
  refine (Ensures.after ?_).located
  intro s
  split
  · refine Ensures.opening ?_
    intro _ hroom
    cases hroom
    have hmembers : Ensures (members (readLinkMember parseUrl settings room owner alone) { seen })
        fun d => OrderlySoFar settings room owner d.seen d.annotations ∧ Grows seen d.seen :=
      ensures_members ⟨OrderlySoFar.nil settings room owner seen, fun _ he => he⟩
        fun d name hd => ensures_readLinkMember hd
    refine hmembers.bind ?_
    intro d hd
    unfold LinkDraft.finish
    split
    · exact Ensures.pure ⟨hd.1.orderly.reverse, hd.2⟩
    · exact ensures_refuse
  · exact ensures_misfit

theorem ensures_readLinkList :
    Ensures (readLinkList parseUrl settings (room + 2) seen) fun r =>
      (∀ l ∈ r.2, Orderly settings room l.annotations) ∧ Grows seen r.1 := by
  refine (Ensures.after ?_).located
  intro s
  split
  · refine Ensures.opening ?_
    intro _ hroom
    cases hroom
    have hitems : Ensures (items (readLinkItem parseUrl settings (room + 1)) (seen, [])) fun state =>
        (∀ l ∈ state.2, Orderly settings room l.annotations) ∧ Grows seen state.1 := by
      refine ensures_items ⟨fun _ => nofun, fun _ he => he⟩ ?_
      intro state hstate
      refine ensures_readLinkObject.bind ?_
      intro r hr
      refine Ensures.pure ⟨List.forall_mem_cons.2 ⟨hr.1, hstate.1⟩, ?_⟩
      intro e he
      exact hr.2 e (hstate.2 e he)
    refine hitems.bind ?_
    intro state hstate
    refine Ensures.pure ⟨?_, hstate.2⟩
    intro l hl
    exact hstate.1 l (List.mem_reverse.1 hl)
  · exact ensures_misfit

/-! ## Collections -/

/-- A collection as it is read where there is room for so many containers inside it. -/
structure OrderlyLinks (settings : ReaderSettings) (room : Nat) (ls : ReferenceLinks) : Prop where
  populated : ls.isPopulated = true
  collection : Orderly settings (room + 2) ls.annotations
  links : ∀ l ∈ ls.toList, Orderly settings room l.annotations

/-- The same of a collection as far as it has been read. -/
structure OrderlyDraft (settings : ReaderSettings) (room : Nat) (d : LinksDraft) : Prop where
  annotations : OrderlySoFar settings (room + 2) .collection d.seen d.annotations
  links : ∀ links ∈ d.links, ∀ l ∈ links, Orderly settings room l.annotations

theorem ensures_readLinksMember {d : LinksDraft} {name : String} (h : OrderlyDraft settings room d) :
    Ensures (readLinksMember parseUrl settings (room + 2) d name) (OrderlyDraft settings room) := by
  unfold readLinksMember
  split
  · exact Ensures.after fun _ => Ensures.pure ⟨h.annotations, h.links⟩
  split
  · exact ensures_unless fun _ => Ensures.after fun _ => Ensures.pure ⟨h.annotations, h.links⟩
  split
  · exact ensures_unless fun _ => Ensures.after fun _ => Ensures.pure ⟨h.annotations, h.links⟩
  split
  · refine ensures_unless ?_
    intro _
    refine ensures_readLinkList.member.bind ?_
    intro r hr
    refine Ensures.pure ⟨h.annotations.grow hr.2, ?_⟩
    rintro links ⟨⟩
    exact hr.1
  split
  · refine (ensures_readOne h.annotations).bind ?_
    intro r hr
    exact Ensures.pure ⟨hr.1, h.links⟩
  · exact ensures_refuse

theorem ensures_readLinksObject :
    Ensures (readLinksObject parseUrl settings (room + 3)) (OrderlyLinks settings room) := by
  refine (Ensures.after ?_).located
  intro s
  split
  · refine Ensures.opening ?_
    intro _ hroom
    cases hroom
    have hmembers : Ensures (members (readLinksMember parseUrl settings (room + 2)) {})
        (OrderlyDraft settings room) :=
      ensures_members ⟨OrderlySoFar.nil settings (room + 2) .collection .empty, fun _ => nofun⟩
        fun d name hd => ensures_readLinksMember hd
    refine hmembers.bind ?_
    intro d hd
    unfold LinksDraft.finish
    split
    · next links hlinks =>
        exact Ensures.pure ⟨rfl, hd.annotations.orderly.reverse, hd.links links hlinks⟩
    · exact ensures_refuse
  · exact ensures_misfit

/-- Whatever was read is orderly. -/
theorem orderly_of_readLinks {bytes : List UInt8} {ls : ReferenceLinks}
    (h : readLinks parseUrl settings bytes = .ok ls) : OrderlyLinks settings 124 ls := by
  rw [readLinks] at h
  cases hrun : run (readLinksObject parseUrl settings deepest) bytes with
  | ok read =>
      rw [hrun] at h
      cases h
      exact ensures_readLinksObject.run hrun
  | error fault =>
      rw [hrun] at h
      cases h

/-! ## Writing what was read -/

variable {w : WriterSettings} {r : ReaderSettings} {ls : ReferenceLinks}

theorem OrderlyLinks.writable (h : OrderlyLinks r room ls) : Writable ls :=
  ⟨h.collection.fit, fun l hl => (h.links l hl).fit⟩

theorem Orderly.depth_members (h : Orderly r room annotations) :
    ∀ m ∈ annotationMembers w annotations, m.2.depth ≤ room := by
  refine List.forall_mem_map.2 ?_
  intro a ha
  rw [annotationMember, Value.depth_toTree_written]
  exact h.nests a (List.mem_of_mem_filter ha)

/-- A collection that was read is written with no more containers in one another than were read. -/
theorem OrderlyLinks.depth_linksTree (h : OrderlyLinks r room ls) :
    (linksTree w ls).depth ≤ room + 3 := by
  have hlink : ∀ l ∈ ls.toList, (linkTree w l).depth ≤ room + 1 := by
    intro l hl
    refine Tree.depth_object_le_iff.2 (List.forall_mem_cons.2 ⟨Nat.zero_le room, ?_⟩)
    exact (h.links l hl).depth_members
  have hcount : ∀ n, (countTree w n).depth ≤ room + 2 := by
    intro n
    unfold countTree
    split <;> exact Nat.zero_le _
  have hvalue : (Tree.list (ls.toList.map (linkTree w))).depth ≤ room + 2 :=
    Tree.depth_list_le_iff.2 (List.forall_mem_map.2 hlink)
  have hfixed : ∀ m ∈ leadingMembers w ls ++ trailingMembers w ls, m.2.depth ≤ room + 2 :=
    forall_fixed (Nat.zero_le _) (fun n _ => hcount n) hvalue fun _ _ => Nat.zero_le _
  exact Tree.depth_object_le_iff.2 (forall_linksMembers hfixed h.collection.depth_members)

theorem OrderlyLinks.distinctNames (h : OrderlyLinks r room ls) :
    ∀ v ∈ sentValues w ls, v.DistinctNames := by
  refine forall_sentValues_iff.2 ⟨?_, ?_⟩
  · intro a ha
    exact (h.collection.settled a (List.mem_of_mem_filter ha)).distinctNames
  · intro l hl a ha
    exact ((h.links l hl).settled a (List.mem_of_mem_filter ha)).distinctNames

/-- A settled value comes back as itself if both sides agree on what integers are. -/
theorem readBack_eq_self (hsame : w.ieee754Compatible = r.ieee754Compatible) {v : Value}
    (hv : v.Settled r.ieee754Compatible) : readBack w r v = v := by
  rw [readBack, annotationValue, hsame]
  cases hieee : r.ieee754Compatible with
  | false =>
      rw [hieee] at hv
      exact Value.ofTree_toTree hv
  | true =>
      rw [hieee] at hv
      exact Value.restore_ofTree_stringify hv

theorem Orderly.passedAnnotations (h : Orderly r room annotations) (hall : w.annotationFilter = .all)
    (hsame : w.ieee754Compatible = r.ieee754Compatible) :
    passedAnnotations w r (readBack w r) annotations = annotations := by
  have hboth : ∀ a ∈ annotations, passesBoth w r a = true := by
    intro a ha
    rw [passesBoth, hall, AnnotationFilter.accepts_all, h.accepted a ha, Bool.and_self]
  rw [Payload.passedAnnotations, List.filter_eq_self.2 hboth]
  refine Value.map_eq_self ?_
  intro a ha
  rw [readBack_eq_self hsame (h.settled a ha)]

theorem OrderlyLinks.passed (h : OrderlyLinks r room ls) (hall : w.annotationFilter = .all)
    (hsame : w.ieee754Compatible = r.ieee754Compatible) : passed w r (readBack w r) ls = ls := by
  have hlinks : ls.toList.map
      (fun l => ⟨l.url, Payload.passedAnnotations w r (readBack w r) l.annotations⟩) = ls.toList := by
    refine Value.map_eq_self ?_
    intro l hl
    rw [(h.links l hl).passedAnnotations hall hsame]
  obtain ⟨links, hpopulated⟩ := Option.isSome_iff_exists.1 h.populated
  rw [Payload.passed, hlinks, h.collection.passedAnnotations hall hsame]
  cases ls
  cases hpopulated
  rfl

/-- Whatever was read can be written; and if the writer leaves nothing out and both sides agree on what
integers are, it is then read as itself and written as the same text. -/
theorem writeLinks_of_readLinks (w : WriterSettings) {bytes : List UInt8}
    (hread : readLinks parseUrl r bytes = .ok ls) :
    ls.isPopulated = true ∧ ∃ text, writeLinks w ls = .ok text ∧
      (w.annotationFilter = .all → w.ieee754Compatible = r.ieee754Compatible →
        (∀ u ∈ ls.urls, parseUrl u.text = .ok u) →
          (∀ v ∈ sentValues w ls, v.DoublesReadBack) →
            readLinks parseUrl r (Text.Utf8.encode text) = .ok ls ∧
              (readLinks parseUrl r (Text.Utf8.encode text) >>= writeLinks w) = .ok text) := by
  have horderly := orderly_of_readLinks hread
  have hwrite : writeLinks w ls = .ok (linksTree w ls).compact :=
    (writeLinks_eq_ok_iff w).2 ⟨horderly.writable, rfl⟩
  refine ⟨horderly.populated, _, hwrite, ?_⟩
  intro hall hsame hurls hdoubles
  have hagain : readLinks parseUrl r (Text.Utf8.encode (linksTree w ls).compact) = .ok ls := by
    rw [readLinks_eq_passed r hwrite horderly.depth_linksTree hurls horderly.distinctNames hdoubles,
      horderly.passed hall hsame]
  refine ⟨hagain, ?_⟩
  rw [hagain]
  exact hwrite

/-- Integers as strings, one of them restored. -/
theorem writeLinks_of_readLinks_restored :
    let w : WriterSettings := { contextUrl := "c", ieee754Compatible := true }
    let r : ReaderSettings := { ieee754Compatible := true }
    let url : Url := ⟨"urn", none, .rootless "a", none, none⟩
    let ls : ReferenceLinks :=
      { links := some [⟨url, [⟨"n.a", .int64 5⟩]⟩], count := some 7
        annotations := [⟨"n.b", .collection [.double .zero]⟩] }
    let text := "\x7b\"@odata.context\":\"c\",\"@odata.count\":\"7\",\"@n.b\":[0.0]," ++
      "\"value\":[\x7b\"@odata.id\":\"urn:a\",\"@n.a\":\"5\"\x7d]\x7d"
    readLinks Url.parse r (Text.Utf8.encode text) = .ok ls ∧
      (∀ u ∈ ls.urls, Url.parse u.text = .ok u) ∧ (∀ v ∈ sentValues w ls, v.DoublesReadBack) ∧
      ls.isPopulated = true ∧ ∃ again, writeLinks w ls = .ok again ∧
        readLinks Url.parse r (Text.Utf8.encode again) = .ok ls ∧
          (readLinks Url.parse r (Text.Utf8.encode again) >>= writeLinks w) = .ok again := by
  intro w r url ls text
  have hwrite : writeLinks w ls = .ok text := by decide +kernel
  have hdepth : (linksTree w ls).depth ≤ deepest := by decide +kernel
  have hurls : ∀ u ∈ ls.urls, Url.parse u.text = .ok u := by
    refine List.forall_mem_singleton.2 ?_
    decide +kernel
  have hvalues : sentValues w ls = [.collection [.double .zero], .int64 5] := rfl
  have hnames : ∀ v ∈ sentValues w ls, v.DistinctNames := by
    rw [hvalues]
    simp [Value.DistinctNames, Value.Everywhere, Value.EverywhereItems, Value.names]
  have hdoubles : ∀ v ∈ sentValues w ls, v.DoublesReadBack := by
    rw [hvalues]
    simp [Value.doublesReadBack_collection_iff, Value.doublesReadBack_zero,
      Value.doublesReadBack_int64]
  have hpassed : passed w r (readBack w r) ls = ls := rfl
  have hread : readLinks Url.parse r (Text.Utf8.encode text) = .ok ls :=
    (readLinks_eq_passed r hwrite hdepth hurls hnames hdoubles).trans (congrArg Except.ok hpassed)
  obtain ⟨hpopulated, again, hagain, hnormal⟩ := writeLinks_of_readLinks w hread
  exact ⟨hread, hurls, hdoubles, hpopulated, again, hagain, hnormal rfl rfl hurls hdoubles⟩

end OData.Payload
