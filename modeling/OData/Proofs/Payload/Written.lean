/-
# `OData.Proofs.Payload.Written` — the tree of a collection, as a payload

What is written for a collection is in the grammar of payloads exactly if no resource that is sent
repeats a name (`isLinks_linksTree_iff`): everything else that the grammar asks for has been seen to by the
writer, given URLs that are read back from their text.  And it stands for the collection as it was,
but for the annotations that one of the two filters leaves out and for what happens to the values
of the others (`linksOf?_linksTree`).
-/
import OData.Proofs.Payload.Writing

namespace OData

open Json

/-- The URLs of a collection. -/
def ReferenceLinks.urls (ls : ReferenceLinks) : List Url :=
  ls.toList.map ReferenceLink.url ++ ls.nextPage.toList

namespace Payload

variable (w : WriterSettings) {r : ReaderSettings}

/-- The values that are sent. -/
def sentValues (ls : ReferenceLinks) : List Value :=
  (filtered w ls.annotations ++ ls.toList.flatMap fun l => filtered w l.annotations).map
    InstanceAnnotation.value

/-! ## Members of annotations -/

variable {annotations : List InstanceAnnotation} {key : String}

theorem customName?_at {name : String} (h : isReserved name = false) :
    customName? ("@" ++ name) = some name :=
  customName?_eq_some_iff.2 ⟨annotationName?_at name, h⟩

theorem mem_annotationMembers {m : String × Tree} :
    m ∈ annotationMembers w annotations ↔
      ∃ a ∈ filtered w annotations, annotationMember w a = m :=
  List.mem_map

theorem FitNames.keep (h : FitNames annotations) : FitNames (filtered w annotations) where
  unreserved a ha := h.unreserved a (List.mem_of_mem_filter ha)
  distinct := h.distinct.sublist (List.filter_sublist.map _)

theorem FitNames.isCustom (h : FitNames annotations) {m : String × Tree}
    (hm : m ∈ annotationMembers w annotations) : (customName? m.1).isSome := by
  obtain ⟨a, ha, rfl⟩ := (mem_annotationMembers w).1 hm
  rw [annotationMember, customName?_at ((h.keep w).unreserved a ha)]
  rfl

theorem FitNames.nodup_members (h : FitNames annotations) :
    ((annotationMembers w annotations).map Prod.fst).Nodup := by
  rw [annotationMembers, List.map_map]
  have hnames := (h.keep w).distinct
  have hinjective : Function.Injective fun name : String => "@" ++ name := by
    intro name name' heq
    have hsome : some name = some name' := by
      rw [← annotationName?_at name, ← annotationName?_at name']
      exact congrArg annotationName? heq
    exact Option.some.inj hsome
  have hmap := hnames.map hinjective
  rwa [List.map_map] at hmap

/-- A name of the protocol's own is not among those of annotations. -/
theorem FitNames.lookup (h : FitNames annotations) (hkey : customName? key = none) :
    (annotationMembers w annotations).lookup key = none := by
  refine lookup_eq_none_of_not_mem ?_
  intro hmem
  obtain ⟨m, hm, rfl⟩ := List.mem_map.1 hmem
  have hsome := h.isCustom w hm
  simp [hkey] at hsome

/-- The values of members are fit if those of the annotations are. -/
theorem distinctNames_members_iff :
    (∀ m ∈ annotationMembers w annotations, m.2.DistinctNames) ↔
      ∀ a ∈ filtered w annotations, a.value.DistinctNames := by
  rw [annotationMembers, List.forall_mem_map]
  exact forall₂_congr fun a _ =>
    (Value.distinctNames_toTree_iff _).trans (Value.distinctNames_written_iff a.value)

/-- Annotations among other members, whose names are not those of annotations. -/
theorem members_around {Fits : String × Tree → Prop} {leading trailing : List (String × Tree)}
    (h : FitNames annotations) (hnames : ((leading ++ trailing).map Prod.fst).Nodup)
    (hothers : ∀ m ∈ leading ++ trailing, customName? m.1 = none) :
    Members Fits (leading ++ annotationMembers w annotations ++ trailing) ↔
      (∀ m ∈ leading ++ trailing, Fits m) ∧ ∀ m ∈ annotationMembers w annotations, Fits m := by
  have hperm : (leading ++ annotationMembers w annotations ++ trailing).Perm
      (annotationMembers w annotations ++ (leading ++ trailing)) := by
    rw [List.append_assoc]
    exact List.perm_append_comm_assoc ..
  have hnodup : ((leading ++ annotationMembers w annotations ++ trailing).map Prod.fst).Nodup := by
    rw [(hperm.map Prod.fst).nodup_iff, List.map_append, List.nodup_append]
    refine ⟨h.nodup_members w, hnames, ?_⟩
    rintro n hn n' hn' rfl
    obtain ⟨m, hm, rfl⟩ := List.mem_map.1 hn
    obtain ⟨m', hm', heq⟩ := List.mem_map.1 hn'
    have hsome := h.isCustom w hm
    rw [← heq, hothers m' hm'] at hsome
    exact Bool.false_ne_true hsome
  have hfits : (∀ m ∈ leading ++ annotationMembers w annotations ++ trailing, Fits m) ↔
      (∀ m ∈ leading ++ trailing, Fits m) ∧ ∀ m ∈ annotationMembers w annotations, Fits m := by
    simp only [List.forall_mem_append]
    tauto
  exact ⟨fun hall => hfits.1 hall.fits, fun hall => ⟨hnodup, hfits.2 hall⟩⟩

/-! ## Links -/

variable {w} {parseUrl : Url.Parser} {l : ReferenceLink} {ls : ReferenceLinks}

theorem urlOf?_text {u : Url} (hu : parseUrl u.text = .ok u) :
    urlOf? parseUrl (.string u.text) = some u := by
  simp [urlOf?, Tree.string?, hu, Except.toOption]

theorem isLink_linkTree_iff (h : FitNames l.annotations) (hurl : parseUrl l.url.text = .ok l.url) :
    IsLink parseUrl false (linkTree w l) ↔ ∀ a ∈ filtered w l.annotations, a.value.DistinctNames := by
  have haround : Members (LinkMember parseUrl false)
        ([(id, Tree.string l.url.text)] ++ annotationMembers w l.annotations ++ []) ↔ _ :=
    members_around w h (List.nodup_singleton _) (List.forall_mem_singleton.2 customName?_id)
  rw [List.append_nil, List.append_nil, List.forall_mem_singleton] at haround
  rw [linkTree, isLink_object_iff, ← distinctNames_members_iff]
  constructor
  · rintro ⟨hmembers, -⟩ m hm
    have hsome := h.isCustom w hm
    refine (LinkMember.of_other ((haround.1 hmembers).2 m hm) ?_ ?_).2
    · intro heq
      simp [heq] at hsome
    · rintro ⟨-, halone⟩
      exact Bool.false_ne_true halone
  · intro hvalues
    have hid : LinkMember parseUrl false (id, .string l.url.text) :=
      .inl ⟨rfl, by simp [urlOf?_text hurl]⟩
    refine ⟨haround.2 ⟨hid, ?_⟩, by simp⟩
    intro m hm
    exact .inr (.inr ⟨h.isCustom w hm, hvalues m hm⟩)

/-! ## Collections -/

/-- What holds of each of the four members that are not annotations. -/
theorem forall_fixed {p : String × Tree → Prop} (hcontext : p (context, .string w.contextUrl))
    (hcount : ∀ n ∈ ls.count, p (count, countTree w n))
    (hvalue : p (value, .list (ls.toList.map (linkTree w))))
    (hnext : ∀ u ∈ ls.nextPage, p (nextLink, .string u.text)) :
    ∀ m ∈ leadingMembers w ls ++ trailingMembers w ls, p m := by
  refine List.forall_mem_append.2 ⟨List.forall_mem_cons.2 ⟨hcontext, ?_⟩,
    List.forall_mem_cons.2 ⟨hvalue, ?_⟩⟩
  · cases hn : ls.count with
    | none => exact nofun
    | some n => exact List.forall_mem_singleton.2 (hcount n hn)
  · cases hu : ls.nextPage with
    | none => exact nofun
    | some u => exact List.forall_mem_singleton.2 (hnext u hu)

theorem forall_linksMembers {p : String × Tree → Prop}
    (hfixed : ∀ m ∈ leadingMembers w ls ++ trailingMembers w ls, p m)
    (hannotations : ∀ m ∈ annotationMembers w ls.annotations, p m) :
    ∀ m ∈ linksMembers w ls, p m := by
  rw [List.forall_mem_append] at hfixed
  exact List.forall_mem_append.2 ⟨List.forall_mem_append.2 ⟨hfixed.1, hannotations⟩, hfixed.2⟩

theorem customName?_of_mem_fixed :
    ∀ m ∈ leadingMembers w ls ++ trailingMembers w ls, customName? m.1 = none :=
  forall_fixed customName?_context (fun _ _ => customName?_count) customName?_value
    fun _ _ => customName?_nextLink

theorem nodup_fixed : ((leadingMembers w ls ++ trailingMembers w ls).map Prod.fst).Nodup := by
  have hnames : ((leadingMembers w ls ++ trailingMembers w ls).map Prod.fst) =
      [context] ++ (ls.count.map fun _ => count).toList ++ [value] ++
        (ls.nextPage.map fun _ => nextLink).toList := by
    unfold leadingMembers trailingMembers
    cases ls.count <;> cases ls.nextPage <;> rfl
  rw [hnames]
  cases ls.count <;> cases ls.nextPage <;>
    simp only [Option.map_none, Option.map_some, Option.toList_none, Option.toList_some] <;> decide

theorem countOf?_countTree (n : Int64) : countOf? (countTree w n) = some n := by
  rw [countTree]
  split
  · exact Text.int64?_decimal n
  · exact Text.int64OfInt?_toInt n

/-- The members that are not annotations are fit if the links are. -/
theorem linksMember_of_mem_fixed (hlinks : ∀ l ∈ ls.toList, IsLink parseUrl false (linkTree w l))
    (hnext : ∀ u ∈ ls.nextPage, parseUrl u.text = .ok u) :
    ∀ m ∈ leadingMembers w ls ++ trailingMembers w ls, LinksMember parseUrl m := by
  refine forall_fixed (.inl rfl) ?_ ?_ ?_
  · intro n _
    refine .inr (.inl ⟨rfl, ?_⟩)
    rw [countOf?_countTree]
    rfl
  · exact .inr (.inr (.inr (.inl ⟨rfl, _, rfl, List.forall_mem_map.2 hlinks⟩)))
  · intro u hu
    refine .inr (.inr (.inl ⟨rfl, ?_⟩))
    rw [urlOf?_text (hnext u hu)]
    rfl

theorem forall_urls_iff {p : Url → Prop} :
    (∀ u ∈ ls.urls, p u) ↔ (∀ l ∈ ls.toList, p l.url) ∧ ∀ u ∈ ls.nextPage, p u := by
  simp only [ReferenceLinks.urls, List.forall_mem_append, List.forall_mem_map, Option.mem_toList,
    Option.mem_def]

theorem forall_sentValues_iff {p : Value → Prop} :
    (∀ v ∈ sentValues w ls, p v) ↔ (∀ a ∈ filtered w ls.annotations, p a.value) ∧
      ∀ l ∈ ls.toList, ∀ a ∈ filtered w l.annotations, p a.value := by
  simp only [sentValues, List.forall_mem_map, List.forall_mem_append, List.mem_flatMap]
  refine and_congr Iff.rfl ⟨fun h l hl a ha => h a ⟨l, hl, ha⟩, ?_⟩
  rintro h a ⟨l, hl, ha⟩
  exact h l hl a ha

/-- What is written is a payload exactly if no resource in it repeats a name. -/
theorem isLinks_linksTree_iff (h : Writable ls) (hurls : ∀ u ∈ ls.urls, parseUrl u.text = .ok u) :
    IsLinks parseUrl (linksTree w ls) ↔ ∀ v ∈ sentValues w ls, v.DistinctNames := by
  obtain ⟨hlink, hnext⟩ := forall_urls_iff.1 hurls
  have haround : Members (LinksMember parseUrl) (linksMembers w ls) ↔ _ :=
    members_around w h.collection nodup_fixed customName?_of_mem_fixed
  rw [linksTree, isLinks_object_iff, haround, forall_sentValues_iff, ← distinctNames_members_iff]
  constructor
  · rintro ⟨⟨hfixed, hannotations⟩, -⟩
    refine ⟨?_, ?_⟩
    · intro m hm
      have hsome := h.collection.isCustom w hm
      refine (LinksMember.of_other (hannotations m hm) ?_ ?_ ?_ ?_).2
      all_goals
        intro heq
        simp [heq] at hsome
    · intro l hl
      have hlist : (value, Tree.list (ls.toList.map (linkTree w))) ∈
          leadingMembers w ls ++ trailingMembers w ls :=
        List.mem_append_right _ List.mem_cons_self
      obtain ⟨items, hitems, hall⟩ := LinksMember.of_value (hfixed _ hlist) rfl
      cases hitems
      exact (isLink_linkTree_iff (h.links l hl) (hlink l hl)).1 (List.forall_mem_map.1 hall l hl)
  · rintro ⟨hannotations, hlinks⟩
    refine ⟨⟨linksMember_of_mem_fixed ?_ hnext, ?_⟩, ?_⟩
    · intro l hl
      exact (isLink_linkTree_iff (h.links l hl) (hlink l hl)).2 (hlinks l hl)
    · intro m hm
      exact .inr (.inr (.inr (.inr ⟨h.collection.isCustom w hm, hannotations m hm⟩)))
    · simp [linksMembers, trailingMembers]

/-! ## What it stands for -/

variable (w r)

/-- An annotation passes both filters. -/
def passesBoth (a : InstanceAnnotation) : Bool :=
  w.annotationFilter.accepts a.name && r.annotationFilter.accepts a.name

/-- The annotations that pass both filters, their values changed by `f`. -/
def passedAnnotations (f : Value → Value) (annotations : List InstanceAnnotation) :
    List InstanceAnnotation :=
  (annotations.filter (passesBoth w r)).map fun a => ⟨a.name, f a.value⟩

/-- The collection with the annotations that pass both filters, their values changed by `f`; one that
is unpopulated comes back empty. -/
def passed (f : Value → Value) (ls : ReferenceLinks) : ReferenceLinks :=
  { links := some (ls.toList.map fun l => ⟨l.url, passedAnnotations w r f l.annotations⟩)
    count := ls.count
    nextPage := ls.nextPage
    annotations := passedAnnotations w r f ls.annotations }

/-- What the reader makes of the JSON form of a value. -/
def readBack (v : Value) : Value :=
  annotationValue r (Value.ofTree (v.written w.ieee754Compatible).toTree)

variable {w r}

theorem filterMap_map_eq {α β γ : Type} {f : β → Option γ} {g : α → β} {q : α → Bool} {k : α → γ} :
    ∀ {as : List α}, (∀ a ∈ as, f (g a) = if q a = true then some (k a) else none) →
      (as.map g).filterMap f = (as.filter q).map k
  | [], _ => rfl
  | a :: as, h => by
      rw [List.forall_mem_cons] at h
      rw [List.map_cons, List.filterMap_cons, List.filter_cons, h.1, filterMap_map_eq h.2]
      cases q a <;> rfl

theorem mapM_map_eq {α β γ : Type} {f : β → Option γ} {g : α → β} {k : α → γ} : ∀ {as : List α},
    (∀ a ∈ as, f (g a) = some (k a)) → (as.map g).mapM f = some (as.map k)
  | [], _ => rfl
  | a :: as, h => by
      rw [List.forall_mem_cons] at h
      simp [List.mapM_cons, h.1, mapM_map_eq h.2]

theorem filterMap_annotationMembers (h : FitNames annotations) :
    (annotationMembers w annotations).filterMap (annotationOf? r) =
      passedAnnotations w r (readBack w r) annotations := by
  have hboth : annotations.filter (passesBoth w r) =
      (filtered w annotations).filter fun a => r.annotationFilter.accepts a.name := by
    rw [filtered, List.filter_filter]
    exact List.filter_congr fun a _ => Bool.and_comm ..
  rw [annotationMembers, passedAnnotations, hboth]
  refine filterMap_map_eq ?_
  intro a ha
  rw [annotationMember, annotationOf?, customName?_at ((h.keep w).unreserved a ha)]
  rfl

theorem filterMap_fixed {ms : List (String × Tree)} (h : ∀ m ∈ ms, customName? m.1 = none) :
    ms.filterMap (annotationOf? r) = [] := by
  refine List.filterMap_eq_nil_iff.2 ?_
  intro m hm
  rw [annotationOf?, h m hm]
  rfl

theorem linkOf?_linkTree (h : FitNames l.annotations) (hurl : parseUrl l.url.text = .ok l.url) :
    linkOf? parseUrl r (linkTree w l) =
      some ⟨l.url, passedAnnotations w r (readBack w r) l.annotations⟩ := by
  simp [linkOf?, linkTree, urlOf?_text hurl, annotationOf?, filterMap_annotationMembers h]

theorem lookup_linksMembers (h : Writable ls) (hkey : customName? key = none) :
    (linksMembers w ls).lookup key =
      ((leadingMembers w ls).lookup key).or ((trailingMembers w ls).lookup key) := by
  rw [linksMembers, List.lookup_append, List.lookup_append, h.collection.lookup w hkey,
    Option.or_none]

theorem lookup_value (h : Writable ls) :
    (linksMembers w ls).lookup value = some (.list (ls.toList.map (linkTree w))) := by
  rw [lookup_linksMembers h customName?_value]
  unfold leadingMembers
  cases ls.count <;> rfl

theorem lookup_count (h : Writable ls) :
    (linksMembers w ls).lookup count = ls.count.map (countTree w) := by
  rw [lookup_linksMembers h customName?_count]
  unfold leadingMembers trailingMembers
  cases ls.count <;> cases ls.nextPage <;> rfl

theorem lookup_nextLink (h : Writable ls) :
    (linksMembers w ls).lookup nextLink = ls.nextPage.map fun u => .string u.text := by
  rw [lookup_linksMembers h customName?_nextLink]
  unfold leadingMembers trailingMembers
  cases ls.count <;> cases ls.nextPage <;> rfl

theorem filterMap_linksMembers (h : Writable ls) :
    (linksMembers w ls).filterMap (annotationOf? r) =
      passedAnnotations w r (readBack w r) ls.annotations := by
  have hfixed : (∀ m ∈ leadingMembers w ls, customName? m.1 = none) ∧
      ∀ m ∈ trailingMembers w ls, customName? m.1 = none :=
    List.forall_mem_append.1 customName?_of_mem_fixed
  rw [linksMembers, List.filterMap_append, List.filterMap_append, filterMap_fixed hfixed.1,
    filterMap_fixed hfixed.2, filterMap_annotationMembers h.collection, List.nil_append,
    List.append_nil]

/-- What is written stands for the collection that was to be written, as far as both filters let it
pass. -/
theorem linksOf?_linksTree (h : Writable ls) (hurls : ∀ u ∈ ls.urls, parseUrl u.text = .ok u) :
    linksOf? parseUrl r (linksTree w ls) = some (passed w r (readBack w r) ls) := by
  obtain ⟨hlink, hpage⟩ := forall_urls_iff.1 hurls
  have hlinks : linkListOf? parseUrl r (.list (ls.toList.map (linkTree w))) = some
      (ls.toList.map fun l => ⟨l.url, passedAnnotations w r (readBack w r) l.annotations⟩) := by
    refine mapM_map_eq ?_
    intro l hl
    exact linkOf?_linkTree (h.links l hl) (hlink l hl)
  have hcount : ls.count.map (countTree w) >>= countOf? = ls.count := by
    cases ls.count with
    | none => rfl
    | some n => exact countOf?_countTree n
  have hnext : (ls.nextPage.map fun u => Tree.string u.text) >>= urlOf? parseUrl = ls.nextPage := by
    cases hnextPage : ls.nextPage with
    | none => rfl
    | some u => exact urlOf?_text (hpage u hnextPage)
  rw [linksTree, linksOf?, lookup_value h, lookup_count h, lookup_nextLink h,
    filterMap_linksMembers h, hcount, hnext]
  simp [hlinks, passed]

end Payload

end OData
