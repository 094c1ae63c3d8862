/-
# `OData.Proofs.Payload.Writing` — what is written for a collection of links

`linksTree` is the tree of a payload: context and count, annotations, links, next link, in this order
and each only if it is there.  The writer writes the compact text of this tree, or nothing: it
refuses a collection exactly if the annotations of some owner have names that are unfit
(`FitNames`), those which the filter leaves out included.
-/
import OData.Payload.Write
import OData.Proofs.Payload.Reading
import OData.Proofs.Value.Writing

namespace OData.Payload

open Json Json.Tree

variable (settings : WriterSettings)

/-! ## Trees -/

/-- The member that an annotation is written as. -/
def annotationMember (a : InstanceAnnotation) : String × Tree :=
  ("@" ++ a.name, (a.value.written settings.ieee754Compatible).toTree)

/-- The annotations that the filter lets pass. -/
def filtered (annotations : List InstanceAnnotation) : List InstanceAnnotation :=
  annotations.filter fun a => settings.annotationFilter.accepts a.name

def annotationMembers (annotations : List InstanceAnnotation) : List (String × Tree) :=
  (filtered settings annotations).map (annotationMember settings)

/-- The members of a link. -/
def linkMembers (l : ReferenceLink) : List (String × Tree) :=
  (id, .string l.url.text) :: annotationMembers settings l.annotations

/-- The tree of a link. -/
def linkTree (l : ReferenceLink) : Tree :=
  .object ((id, .string l.url.text) :: annotationMembers settings l.annotations)

/-- The tree of a link that is a payload by itself. -/
def singleTree (l : ReferenceLink) : Tree :=
  .object ((context, .string settings.contextUrl) :: linkMembers settings l)

/-- The tree of a number of links. -/
def countTree (n : Int64) : Tree :=
  if settings.ieee754Compatible then .string (Text.decimal n.toInt) else .integer n.toInt

/-- The members that a collection begins with. -/
def leadingMembers (ls : ReferenceLinks) : List (String × Tree) :=
  (context, .string settings.contextUrl) ::
    (ls.count.map fun n => (count, countTree settings n)).toList

/-- The members that a collection ends with. -/
def trailingMembers (ls : ReferenceLinks) : List (String × Tree) :=
  (value, .list (ls.toList.map (linkTree settings))) ::
    (ls.nextPage.map fun url => (nextLink, .string url.text)).toList

def linksMembers (ls : ReferenceLinks) : List (String × Tree) :=
  leadingMembers settings ls ++ annotationMembers settings ls.annotations ++
    trailingMembers settings ls

/-- The tree of a collection of links. -/
def linksTree (ls : ReferenceLinks) : Tree := .object (linksMembers settings ls)

/-! ## Names -/

/-- The names of one owner's annotations can be written. -/
structure FitNames (annotations : List InstanceAnnotation) : Prop where
  unreserved : ∀ a ∈ annotations, isReserved a.name = false
  distinct : (annotations.map InstanceAnnotation.name).Nodup

/-- The collection can be written. -/
structure Writable (ls : ReferenceLinks) : Prop where
  collection : FitNames ls.annotations
  links : ∀ l ∈ ls.toList, FitNames l.annotations

variable {annotations : List InstanceAnnotation} {owner : AnnotationOwner} {d : Draft}

/-- The names are fit, and the owner has had none of them before. -/
def FitBehind (owner : AnnotationOwner) (seen : SeenNames) (annotations : List InstanceAnnotation) :
    Prop :=
  FitNames annotations ∧ ∀ a ∈ annotations, (owner, a.name) ∉ seen.entries

theorem fitNames_nil : FitNames [] := ⟨nofun, List.nodup_nil⟩

theorem fitNames_cons_iff {a : InstanceAnnotation} :
    FitNames (a :: annotations) ↔ isReserved a.name = false ∧
      a.name ∉ annotations.map InstanceAnnotation.name ∧ FitNames annotations := by
  constructor
  · rintro ⟨hunreserved, hdistinct⟩
    rw [List.forall_mem_cons] at hunreserved
    rw [List.map_cons, List.nodup_cons] at hdistinct
    exact ⟨hunreserved.1, hdistinct.1, hunreserved.2, hdistinct.2⟩
  · rintro ⟨hunreserved, hnew, hfit⟩
    refine ⟨List.forall_mem_cons.2 ⟨hunreserved, hfit.unreserved⟩, ?_⟩
    rw [List.map_cons, List.nodup_cons]
    exact ⟨hnew, hfit.distinct⟩

theorem fitBehind_cons_iff {a : InstanceAnnotation} {seen : SeenNames} :
    FitBehind owner seen (a :: annotations) ↔
      (isReserved a.name = false ∧ (owner, a.name) ∉ seen.entries) ∧
        FitBehind owner ⟨(owner, a.name) :: seen.entries⟩ annotations := by
  rw [FitBehind, FitBehind, fitNames_cons_iff]
  constructor
  · rintro ⟨⟨hunreserved, hother, hfit⟩, hnew⟩
    rw [List.forall_mem_cons] at hnew
    refine ⟨⟨hunreserved, hnew.1⟩, hfit, ?_⟩
    intro b hb hmem
    rcases List.mem_cons.1 hmem with heq | hmem
    · exact hother (List.mem_map.2 ⟨b, hb, congrArg Prod.snd heq⟩)
    · exact hnew.2 b hb hmem
  · rintro ⟨⟨hunreserved, hnew⟩, hfit, hbehind⟩
    refine ⟨⟨hunreserved, ?_, hfit⟩, List.forall_mem_cons.2 ⟨hnew, ?_⟩⟩
    · intro hmem
      obtain ⟨b, hb, hname⟩ := List.mem_map.1 hmem
      refine hbehind b hb ?_
      rw [hname]
      exact List.mem_cons_self
    · intro b hb hmem
      exact hbehind b hb (List.mem_cons_of_mem _ hmem)

theorem fitBehind_iff {seen : SeenNames} (hfresh : ∀ n, (owner, n) ∉ seen.entries) :
    FitBehind owner seen annotations ↔ FitNames annotations :=
  and_iff_left fun _ _ => hfresh _

/-! ## Annotations -/

/-- Members that have been written behind what `w` has. -/
def withMembers (w : Writer) (ms : List (String × Tree)) : Writer := w.addAll (ms.map memberText)

theorem withMembers_append (w : Writer) (ms ms' : List (String × Tree)) :
    withMembers (withMembers w ms) ms' = withMembers w (ms ++ ms') := by
  rw [withMembers, withMembers, withMembers, List.map_append, Writer.addAll_append]

theorem name_raw_compact {w : Writer} (hw : w.Within .object) (name : String) (t : Tree) :
    (w.name name).raw t.compact = withMembers w [(name, t)] :=
  Writer.name_raw hw name t.compact

theorem annotationMembers_append (annotations more : List InstanceAnnotation) :
    annotationMembers settings annotations ++ annotationMembers settings more =
      annotationMembers settings (annotations ++ more) := by
  rw [annotationMembers, annotationMembers, annotationMembers, ← List.map_append, filtered, filtered,
    filtered, ← List.filter_append]

theorem gives_writeOne (hw : d.writer.Within .object) (a : InstanceAnnotation) :
    Gives (writeOne settings owner d a)
      (fun d' => (isReserved a.name = false ∧ (owner, a.name) ∉ d.seen.entries) ∧
        d' = ⟨withMembers d.writer (annotationMembers settings [a]), ⟨(owner, a.name) :: d.seen.entries⟩⟩)
      fun _ => ¬ (isReserved a.name = false ∧ (owner, a.name) ∉ d.seen.entries) := by
  rw [writeOne]
  by_cases hreserved : isReserved a.name = true
  · rw [if_pos hreserved]
    exact Gives.error fun h => absurd hreserved (Bool.eq_false_iff.1 h.1)
  rw [if_neg hreserved]
  by_cases hseen : (owner, a.name) ∈ d.seen.entries
  · rw [SeenNames.insert_of_mem hseen]
    exact Gives.error fun h => h.2 hseen
  rw [SeenNames.insert_of_not_mem hseen]
  have hgood : isReserved a.name = false ∧ (owner, a.name) ∉ d.seen.entries :=
    ⟨Bool.eq_false_iff.2 hreserved, hseen⟩
  by_cases haccepts : settings.annotationFilter.accepts a.name = true
  · rw [Writer.value_eq_raw, name_raw_compact hw]
    simp only [haccepts, if_true]
    refine Gives.ok ⟨hgood, ?_⟩
    simp [annotationMembers, filtered, haccepts, annotationMember]
  · simp only [haccepts]
    refine Gives.ok ⟨hgood, ?_⟩
    simp [annotationMembers, filtered, haccepts, withMembers, Writer.addAll]

theorem gives_writeAnnotations (owner : AnnotationOwner) (hw : d.writer.Within .object)
    (annotations : List InstanceAnnotation) :
    Gives (writeAnnotations settings owner d annotations)
      (fun d' => FitBehind owner d.seen annotations ∧
        d'.writer = withMembers d.writer (annotationMembers settings annotations) ∧
        KeepsOthers owner d.seen d'.seen)
      fun _ => ¬ FitBehind owner d.seen annotations := by
  induction annotations generalizing d with
  | nil => exact Gives.ok ⟨⟨fitNames_nil, nofun⟩, rfl, KeepsOthers.refl owner d.seen⟩
  | cons a annotations ih =>
      rw [writeAnnotations, List.foldlM_cons, fitBehind_cons_iff]
      refine (gives_writeOne settings hw a).bind ?_ ?_
      · rintro _ ⟨hgood, rfl⟩
        refine (ih (hw.addAll _)).mono ?_ ?_
        · rintro d' ⟨hfit, hwriter, hothers⟩
          refine ⟨⟨hgood, hfit⟩, ?_, (keepsOthers_cons owner a.name d.seen).trans hothers⟩
          rw [hwriter, withMembers_append, annotationMembers_append, List.singleton_append]
        · intro _ hbad hfit
          exact hbad hfit.2
      · intro _ hbad hfit
        exact hbad hfit.1

/-! ## Links -/

theorem endObject_withMembers (w : Writer) (ms : List (String × Tree)) :
    (withMembers w.startObject ms).endObject = w.raw (Tree.object ms).compact := by
  rw [withMembers, Writer.endObject_addAll, compact, compactMembers_eq_map]
  rfl

theorem within_withMembers {w : Writer} (hw : w.Within .object) (ms : List (String × Tree)) :
    (withMembers w ms).Within .object :=
  hw.addAll _

theorem gives_writeLinkMembers (hw : d.writer.Within .object)
    (hfresh : ∀ n, (owner, n) ∉ d.seen.entries) (l : ReferenceLink) :
    Gives (writeLinkMembers settings owner d l)
      (fun d' => FitNames l.annotations ∧
        d'.writer = withMembers d.writer (linkMembers settings l) ∧
        KeepsOthers owner d.seen d'.seen)
      fun _ => ¬ FitNames l.annotations := by
  have hid : (d.writer.name id).string l.url.text =
      withMembers d.writer [(id, .string l.url.text)] :=
    name_raw_compact hw id (.string l.url.text)
  rw [writeLinkMembers, hid, ← fitBehind_iff hfresh]
  have hin : (withMembers d.writer [(id, .string l.url.text)]).Within .object :=
    within_withMembers hw _
  refine (gives_writeAnnotations settings owner hin l.annotations).mono ?_ ?_
  · rintro d' ⟨hfit, hwriter, hothers⟩
    refine ⟨hfit, ?_, hothers⟩
    rw [hwriter, withMembers_append, linkMembers, List.singleton_append]
  · intro _ hbad
    exact hbad

/-- A link of a list, from its opening bracket to its last member. -/
theorem gives_writeListedLink (hfresh : ∀ n, (owner, n) ∉ d.seen.entries) (l : ReferenceLink) :
    Gives (writeLinkMembers settings owner { d with writer := d.writer.startObject } l)
      (fun d' => FitNames l.annotations ∧
        d'.writer.endObject = d.writer.raw (linkTree settings l).compact ∧
        KeepsOthers owner d.seen d'.seen)
      fun _ => ¬ FitNames l.annotations := by
  have hin : Writer.Within .object ({ d with writer := d.writer.startObject } : Draft).writer :=
    d.writer.within_startObject
  refine (gives_writeLinkMembers settings hin hfresh l).mono ?_ ?_
  · rintro d' ⟨hfit, hwriter, hothers⟩
    refine ⟨hfit, ?_, hothers⟩
    rw [hwriter, endObject_withMembers, linkTree, linkMembers]
  · intro _ hbad
    exact hbad

theorem gives_writeLinkItems {links : List ReferenceLink} {index : Nat} (hw : d.writer.Within .list)
    (hfresh : ∀ i n, index ≤ i → (.link i, n) ∉ d.seen.entries) :
    Gives (writeLinkItems settings index d links)
      (fun d' => (∀ l ∈ links, FitNames l.annotations) ∧
        d'.writer = d.writer.addAll ((links.map (linkTree settings)).map compact))
      fun _ => ¬ ∀ l ∈ links, FitNames l.annotations := by
  induction links generalizing index d with
  | nil => exact Gives.ok ⟨nofun, rfl⟩
  | cons l links ih =>
      rw [writeLinkItems, List.forall_mem_cons]
      have hnew : ∀ n, (AnnotationOwner.link index, n) ∉ d.seen.entries := by
        intro n
        exact hfresh index n (Nat.le_refl index)
      refine (gives_writeListedLink settings hnew l).bind ?_ ?_
      · rintro d' ⟨hfit, hwriter, hothers⟩
        rw [hwriter, Writer.raw_eq_add hw]
        refine (ih (hw.add _) ?_).mono ?_ ?_
        · intro i n hi
          have hne : AnnotationOwner.link i ≠ .link index := by
            intro heq
            cases heq
            exact Nat.not_succ_le_self _ hi
          rw [hothers _ n hne]
          exact hfresh i n (Nat.le_of_succ_le hi)
        · rintro d'' ⟨hall, hwriter⟩
          exact ⟨⟨hfit, hall⟩, hwriter⟩
        · intro _ hbad hall
          exact hbad hall.2
      · intro _ hbad hfit
        exact hbad hfit.1

/-! ## Collections -/

theorem begin_writer :
    (begin settings).writer =
      withMembers Writer.empty.startObject [(context, .string settings.contextUrl)] :=
  name_raw_compact Writer.empty.within_startObject context (.string settings.contextUrl)

theorem writeCount_begin (ls : ReferenceLinks) :
    writeCount settings (begin settings).writer ls.count =
      withMembers Writer.empty.startObject (leadingMembers settings ls) := by
  rw [begin_writer]
  cases hcount : ls.count with
  | none => simp [writeCount, leadingMembers, hcount]
  | some n =>
      have hw := within_withMembers Writer.empty.within_startObject
        [(context, Tree.string settings.contextUrl)]
      have hint : writeCount settings (withMembers Writer.empty.startObject
            [(context, .string settings.contextUrl)]) (some n) =
          ((withMembers Writer.empty.startObject [(context, .string settings.contextUrl)]).name
            count).raw (countTree settings n).compact := by
        rw [writeCount, Writer.int64, countTree]
        split <;> rfl
      rw [hint, name_raw_compact hw, withMembers_append]
      simp [leadingMembers, hcount]

theorem endList_writer {w : Writer} (hw : w.Within .object) (ls : ReferenceLinks) :
    writeNextLink ((w.name value).startList.addAll
        ((ls.toList.map (linkTree settings)).map compact)).endList ls.nextPage =
      withMembers w (trailingMembers settings ls) := by
  have hlist : ((w.name value).startList.addAll
        ((ls.toList.map (linkTree settings)).map compact)).endList =
      withMembers w [(value, .list (ls.toList.map (linkTree settings)))] := by
    rw [Writer.endList_addAll, ← compactItems_eq_map]
    exact name_raw_compact hw value (.list (ls.toList.map (linkTree settings)))
  rw [hlist]
  cases hnext : ls.nextPage with
  | none => simp [writeNextLink, trailingMembers, hnext]
  | some url =>
      have hnextLink := name_raw_compact
        (within_withMembers hw [(value, .list (ls.toList.map (linkTree settings)))])
        nextLink (.string url.text)
      refine hnextLink.trans ?_
      rw [withMembers_append]
      simp [trailingMembers, hnext]

theorem gives_draftLinks (ls : ReferenceLinks) :
    Gives (draftLinks settings ls)
      (fun w => Writable ls ∧ w = Writer.empty.raw (linksTree settings ls).compact)
      fun _ => ¬ Writable ls := by
  have hstart := Writer.empty.within_startObject
  rw [draftLinks]
  simp only [writeCount_begin]
  refine (gives_writeAnnotations settings .collection
    (within_withMembers hstart _) ls.annotations).bind ?_ ?_
  · rintro d ⟨hfit, hwriter, hothers⟩
    have hin : d.writer.Within .object := by
      rw [hwriter]
      exact within_withMembers (within_withMembers hstart _) _
    have hfresh : ∀ i n, 0 ≤ i → (AnnotationOwner.link i, n) ∉ d.seen.entries := by
      intro i n _
      rw [hothers _ n (by simp)]
      exact List.not_mem_nil
    have hlist : ({ d with writer := (d.writer.name value).startList } : Draft).writer.Within .list :=
      Writer.within_startList _
    refine (gives_writeLinkItems settings hlist hfresh).bind ?_ ?_
    · rintro d' ⟨hlinks, hitems⟩
      refine Gives.ok ⟨⟨hfit.1, hlinks⟩, ?_⟩
      rw [hitems, endList_writer settings hin, hwriter, withMembers_append, withMembers_append,
        endObject_withMembers, linksTree, linksMembers, List.append_assoc]
    · intro _ hbad hwritable
      exact hbad hwritable.links
  · intro _ hbad hwritable
    refine hbad ((fitBehind_iff ?_).2 hwritable.collection)
    intro n
    exact List.not_mem_nil

/-- The writer writes the tree of a collection if it can be written, and nothing if it can not. -/
theorem gives_writeLinks (ls : ReferenceLinks) :
    Gives (writeLinks settings ls)
      (fun text => Writable ls ∧ text = (linksTree settings ls).compact)
      fun _ => ¬ Writable ls := by
  refine (gives_draftLinks settings ls).bind ?_ ?_
  · rintro w ⟨hwritable, rfl⟩
    rw [Writer.empty_raw]
    exact Gives.ok ⟨hwritable, rfl⟩
  · intro _ hbad
    exact hbad

/-- The same of a single link, with the members of one in a list behind the context. -/
theorem gives_writeLink (l : ReferenceLink) :
    Gives (writeLink settings l)
      (fun text => FitNames l.annotations ∧ text = (singleTree settings l).compact)
      fun _ => ¬ FitNames l.annotations := by
  have hin : (begin settings).writer.Within .object := by
    rw [begin_writer]
    exact within_withMembers Writer.empty.within_startObject _
  have hfresh : ∀ n, (AnnotationOwner.link 0, n) ∉ (begin settings).seen.entries :=
    fun n => List.not_mem_nil
  have hdraft : Gives (draftLink settings l)
      (fun w => FitNames l.annotations ∧ w = Writer.empty.raw (singleTree settings l).compact)
      fun _ => ¬ FitNames l.annotations := by
    refine (gives_writeLinkMembers settings hin hfresh l).bind ?_ fun _ hbad => hbad
    rintro d ⟨hfit, hwriter, -⟩
    refine Gives.ok ⟨hfit, ?_⟩
    rw [hwriter, begin_writer, withMembers_append, List.singleton_append, endObject_withMembers,
      singleTree]
  refine hdraft.bind ?_ fun _ hbad => hbad
  rintro w ⟨hfit, rfl⟩
  rw [Writer.empty_raw]
  exact Gives.ok ⟨hfit, rfl⟩

theorem writeLink_eq_ok_iff {l : ReferenceLink} {text : String} :
    writeLink settings l = .ok text ↔
      FitNames l.annotations ∧ text = (singleTree settings l).compact :=
  (gives_writeLink settings l).eq_ok_iff text

theorem writeLinks_eq_ok_iff {ls : ReferenceLinks} {text : String} :
    writeLinks settings ls = .ok text ↔ Writable ls ∧ text = (linksTree settings ls).compact :=
  (gives_writeLinks settings ls).eq_ok_iff text

theorem draftLinks_eq_ok_iff {ls : ReferenceLinks} {w : Writer} :
    draftLinks settings ls = .ok w ↔
      Writable ls ∧ w = Writer.empty.raw (linksTree settings ls).compact :=
  (gives_draftLinks settings ls).eq_ok_iff w

/-- What is written for a collection is the compact text of its tree, and when it has been written every
container that was opened is closed. -/
theorem writes_compact_tree {ls : ReferenceLinks} (h : Writable ls) :
    draftLinks settings ls = .ok ⟨(linksTree settings ls).compact, []⟩ ∧
      writeLinks settings ls = .ok (linksTree settings ls).compact := by
  refine ⟨(draftLinks_eq_ok_iff settings).2 ⟨h, ?_⟩, (writeLinks_eq_ok_iff settings).2 ⟨h, rfl⟩⟩
  exact (Writer.empty_raw _).symm

/-- Annotations left out, containers that are empty, a name that comes twice in a resource and integers as
strings. -/
theorem writes_compact_tree_nested :
    let settings : WriterSettings :=
      { contextUrl := "c", annotationFilter := ⟨[⟨.under "n", false⟩]⟩, ieee754Compatible := true }
    let url : Url := ⟨"urn", none, .rootless "a", none, none⟩
    let a : InstanceAnnotation :=
      ⟨"n.a", .resource [("x", .int64 5), ("x", .collection []), ("", .collection [.resource [], .int32 5])]⟩
    let ls : ReferenceLinks :=
      { links := some [⟨url, [⟨"m.b", .null⟩, a, ⟨"m.c", .null⟩]⟩, ⟨url, []⟩]
        count := some 2
        nextPage := some url
        annotations := [⟨"m.b", .null⟩, ⟨"n.b", .string "\"\n"⟩] }
    let text := "\x7b\"@odata.context\":\"c\",\"@odata.count\":\"2\",\"@n.b\":\"\\\"\\n\",\"value\":[" ++
      "\x7b\"@odata.id\":\"urn:a\",\"@n.a\":\x7b\"x\":\"5\",\"x\":[],\"\":[\x7b\x7d,5]\x7d\x7d," ++
      "\x7b\"@odata.id\":\"urn:a\"\x7d],\"@odata.nextLink\":\"urn:a\"\x7d"
    Writable ls ∧ draftLinks settings ls = .ok ⟨text, []⟩ ∧ writeLinks settings ls = .ok text := by
  intro settings url a ls text
  have hwrite : writeLinks settings ls = .ok text := by decide +kernel
  have hwritable : Writable ls := ((writeLinks_eq_ok_iff settings).1 hwrite).1
  have htext : (linksTree settings ls).compact = text := by decide +kernel
  have h := writes_compact_tree settings hwritable
  rw [htext] at h
  exact ⟨hwritable, h⟩

end OData.Payload
