/-
# `OData.Proofs.Payload.RoundTrip` — what is written is read again

A collection that was written is read under settings of the reader's own: what comes back is the
collection as far as both filters let its annotations pass, with values changed only as the two
sides have asked for (`transmitted`).

| hypothesis | why it is there |
| :-- | :-- |
| `(linksTree w ls).depth ≤ deepest` | the reader opens no more containers inside one another |
| `parseUrl u.text = .ok u` | a URL travels as its text, and one that was put together by hand may not be the one its text says |
| `v.DistinctNames` | the writer sends a resource that repeats a name, and the reader turns it down |
| `v.DoublesReadBack` | the text of a double is read with more than one rounding |

The last one is only about which values come back; whether anything does is decided by the third alone
(`accepts_written_iff_distinctNames`).
-/
import OData.Proofs.Payload.Acceptance
import OData.Proofs.Payload.Written
import OData.Proofs.Value.RoundTrip

namespace OData

open Json Json.Scan

/-! ## Payloads with their doubles read again -/

namespace Payload

variable {parseUrl : Url.Parser}

section Reread

variable {t : Tree} {m : String × Tree} {ms : List (String × Tree)}

theorem urlOf?_reread (t : Tree) : urlOf? parseUrl t.reread = urlOf? parseUrl t := by
  cases t <;> rfl

theorem countOf?_reread (t : Tree) : countOf? t.reread = countOf? t := by
  cases t <;> rfl

theorem members_reread_iff {Fits : String × Tree → Prop}
    (h : ∀ m, Fits (m.1, m.2.reread) ↔ Fits m) :
    Members Fits (ms.map fun m => (m.1, m.2.reread)) ↔ Members Fits ms := by
  have hnames : (ms.map fun m => (m.1, m.2.reread)).map Prod.fst = ms.map Prod.fst := by
    rw [List.map_map]
    rfl
  have hfits : (∀ m ∈ ms.map fun m => (m.1, m.2.reread), Fits m) ↔ ∀ m ∈ ms, Fits m := by
    rw [List.forall_mem_map]
    exact forall₂_congr fun m _ => h m
  exact ⟨fun hall => ⟨hnames ▸ hall.distinct, hfits.1 hall.fits⟩,
    fun hall => ⟨hnames.symm ▸ hall.distinct, hfits.2 hall.fits⟩⟩

theorem linkMember_reread_iff {alone : Bool} (m : String × Tree) :
    LinkMember parseUrl alone (m.1, m.2.reread) ↔ LinkMember parseUrl alone m := by
  simp only [LinkMember, urlOf?_reread, Tree.distinctNames_reread_iff]

theorem isLink_reread_iff {alone : Bool} :
    IsLink parseUrl alone t.reread ↔ IsLink parseUrl alone t := by
  cases t with
  | object ms =>
      rw [Tree.reread, Tree.mapDoubles_object, isLink_object_iff, isLink_object_iff, List.map_map]
      exact and_congr (members_reread_iff linkMember_reread_iff) Iff.rfl
  | _ =>
      constructor
      · rintro ⟨ms, hms, -⟩
        cases hms
      · rintro ⟨ms, hms, -⟩
        cases hms

theorem areLinks_reread_iff :
    (∃ items, t.reread = .list items ∧ ∀ t ∈ items, IsLink parseUrl false t) ↔
      ∃ items, t = .list items ∧ ∀ t ∈ items, IsLink parseUrl false t := by
  cases t with
  | list items =>
      simp only [Tree.reread, Tree.mapDoubles_list, Tree.list.injEq, exists_eq_left',
        List.forall_mem_map]
      exact forall₂_congr fun t _ => isLink_reread_iff
  | _ =>
      constructor
      · rintro ⟨items, hitems, -⟩
        cases hitems
      · rintro ⟨items, hitems, -⟩
        cases hitems

theorem linksMember_reread_iff (m : String × Tree) :
    LinksMember parseUrl (m.1, m.2.reread) ↔ LinksMember parseUrl m := by
  simp only [LinksMember, urlOf?_reread, countOf?_reread, Tree.distinctNames_reread_iff,
    areLinks_reread_iff]

/-- The grammar of payloads does not look into doubles. -/
theorem isLinks_reread_iff : IsLinks parseUrl t.reread ↔ IsLinks parseUrl t := by
  cases t with
  | object ms =>
      rw [Tree.reread, Tree.mapDoubles_object, isLinks_object_iff, isLinks_object_iff, List.map_map]
      exact and_congr (members_reread_iff linksMember_reread_iff) Iff.rfl
  | _ =>
      constructor
      · rintro ⟨ms, hms, -⟩
        cases hms
      · rintro ⟨ms, hms, -⟩
        cases hms

end Reread

/-! ## The text of a collection -/

section Text

variable {w : WriterSettings} {ls : ReferenceLinks}

theorem everywhere_annotationMembers {p : Tree → Prop} {annotations : List InstanceAnnotation}
    (h : ∀ a ∈ filtered w annotations, (a.value.written w.ieee754Compatible).toTree.Everywhere p) :
    ∀ m ∈ annotationMembers w annotations, m.2.Everywhere p :=
  List.forall_mem_map.2 h

/-- What holds everywhere in the values that are sent holds everywhere in the payload, if it holds of
everything else there may be. -/
theorem everywhere_linksTree {p : Tree → Prop} (hobject : ∀ ms, p (.object ms))
    (hlist : ∀ items, p (.list items)) (hstring : ∀ s, p (.string s))
    (hcount : ∀ n : Int64, p (.integer n.toInt))
    (h : ∀ v ∈ sentValues w ls, (v.written w.ieee754Compatible).toTree.Everywhere p) :
    (linksTree w ls).Everywhere p := by
  rw [forall_sentValues_iff] at h
  have hlinks : ∀ l ∈ ls.toList, (linkTree w l).Everywhere p := by
    intro l hl
    refine Tree.everywhere_object_iff.2 ⟨hobject _, List.forall_mem_cons.2 ⟨hstring l.url.text, ?_⟩⟩
    exact everywhere_annotationMembers (h.2 l hl)
  have hcountTree : ∀ n, (countTree w n).Everywhere p := by
    intro n
    unfold countTree
    split
    · exact hstring _
    · exact hcount n
  have hvalue : (Tree.list (ls.toList.map (linkTree w))).Everywhere p :=
    Tree.everywhere_list_iff.2 ⟨hlist _, List.forall_mem_map.2 hlinks⟩
  have hfixed : ∀ m ∈ leadingMembers w ls ++ trailingMembers w ls, m.2.Everywhere p :=
    forall_fixed (hstring w.contextUrl) (fun n _ => hcountTree n) hvalue fun u _ => hstring u.text
  refine Tree.everywhere_object_iff.2 ⟨hobject _, ?_⟩
  exact forall_linksMembers hfixed (everywhere_annotationMembers h.1)

theorem printable_linksTree : (linksTree w ls).Everywhere Tree.IsPrintable := by
  refine everywhere_linksTree (fun _ => trivial) (fun _ => trivial) (fun _ => trivial) ?_ ?_
  · intro n
    have hlow := n.le_toInt
    have hhigh := n.toInt_lt
    exact ⟨by omega, by omega⟩
  · intro v _
    exact Value.printable_toTree (v.written w.ieee754Compatible)

theorem doublesReadBack_linksTree (h : ∀ v ∈ sentValues w ls, v.DoublesReadBack) :
    (linksTree w ls).DoublesReadBack :=
  everywhere_linksTree (fun _ => nofun) (fun _ => nofun) (fun _ => nofun) (fun _ => nofun)
    fun v hv => Value.doublesReadBack_toTree (Value.doublesReadBack_written (h v hv))

/-- The text of a collection is a text of its tree. -/
theorem jsonText_writeLinks {text : String} (hwrite : writeLinks w ls = .ok text) :
    JsonText (Text.Utf8.encode text) (linksTree w ls).reread := by
  rw [((writeLinks_eq_ok_iff w).1 hwrite).2]
  exact Tree.jsonText_compact printable_linksTree

/-- What is read of a text that was written. -/
theorem readLinks_eq_passed {text : String} (r : ReaderSettings)
    (hwrite : writeLinks w ls = .ok text) (hdepth : (linksTree w ls).depth ≤ deepest)
    (hurls : ∀ u ∈ ls.urls, parseUrl u.text = .ok u)
    (hnames : ∀ v ∈ sentValues w ls, v.DistinctNames)
    (hdoubles : ∀ v ∈ sentValues w ls, v.DoublesReadBack) :
    readLinks parseUrl r (Text.Utf8.encode text) = .ok (passed w r (readBack w r) ls) := by
  have hwritable := ((writeLinks_eq_ok_iff w).1 hwrite).1
  have htext := jsonText_writeLinks hwrite
  rw [Tree.reread_eq (doublesReadBack_linksTree hdoubles)] at htext
  exact ((gives_readLinks parseUrl r htext hdepth).ok_iff _).2
    ⟨(isLinks_linksTree_iff hwritable hurls).2 hnames, linksOf?_linksTree hwritable hurls⟩

end Text

/-! ## Up to equality -/

variable {w : WriterSettings} {r : ReaderSettings} {ls : ReferenceLinks} {text : String}

theorem eqList_map {α β : Type} {eq : β → β → Bool} {f g : α → β} : ∀ {as : List α},
    (∀ a ∈ as, eq (f a) (g a) = true) → eqList eq (as.map f) (as.map g) = true
  | [], _ => rfl
  | a :: as, h => by
      rw [List.forall_mem_cons] at h
      rw [List.map_cons, List.map_cons, eqList, h.1, eqList_map h.2, Bool.and_self]

/-- What the writer emits is accepted exactly if no resource that was sent repeats a name. -/
theorem accepts_written_iff_distinctNames (r : ReaderSettings) (hwrite : writeLinks w ls = .ok text)
    (hdepth : (linksTree w ls).depth ≤ deepest)
    (hurls : ∀ u ∈ ls.urls, parseUrl u.text = .ok u) :
    (∃ read, readLinks parseUrl r (Text.Utf8.encode text) = .ok read) ↔
      ∀ v ∈ sentValues w ls, v.DistinctNames := by
  have hwritable := ((writeLinks_eq_ok_iff w).1 hwrite).1
  have hgives := gives_readLinks parseUrl r (jsonText_writeLinks hwrite) (by rwa [Tree.depth_reread])
  rw [← isLinks_linksTree_iff hwritable hurls, ← isLinks_reread_iff]
  constructor
  · rintro ⟨read, hread⟩
    exact ((hgives.ok_iff read).1 hread).1
  · intro hlinks
    obtain ⟨read, hvalue⟩ := Option.isSome_iff_exists.1 (linksOf?_isSome r hlinks)
    exact ⟨read, (hgives.ok_iff read).2 ⟨hlinks, hvalue⟩⟩

/-- With other names the same resource is accepted. -/
theorem accepts_written_of_other_names :
    let ls : ReferenceLinks :=
      { links := some [], annotations := [⟨"n.a", .resource [("x", .null), ("y", .null)]⟩] }
    let text := "\x7b\"@odata.context\":\"\",\"@n.a\":\x7b\"x\":null,\"y\":null\x7d,\"value\":[]\x7d"
    writeLinks {} ls = .ok text ∧ (linksTree {} ls).depth ≤ deepest ∧
      (∀ u ∈ ls.urls, Url.parse u.text = .ok u) ∧
      ((∃ read, readLinks Url.parse {} (Text.Utf8.encode text) = .ok read) ↔
        ∀ v ∈ sentValues {} ls, v.DistinctNames) ∧
      ∀ v ∈ sentValues {} ls, v.DistinctNames := by
  intro ls text
  have hwrite : writeLinks {} ls = .ok text := by decide +kernel
  have hdepth : (linksTree {} ls).depth ≤ deepest := by decide +kernel
  have hurls : ∀ u ∈ ls.urls, Url.parse u.text = .ok u := nofun
  have hvalues : sentValues {} ls = [.resource [("x", .null), ("y", .null)]] := rfl
  refine ⟨hwrite, hdepth, hurls, accepts_written_iff_distinctNames {} hwrite hdepth hurls, ?_⟩
  rw [hvalues]
  simp [Value.DistinctNames, Value.Everywhere, Value.EverywhereMembers, Value.names]

/-- A resource that repeats a name is sent and then turned down. -/
theorem written_payload_turned_down :
    let ls : ReferenceLinks :=
      { links := some [], annotations := [⟨"n.a", .resource [("x", .null), ("x", .null)]⟩] }
    let text := "\x7b\"@odata.context\":\"\",\"@n.a\":\x7b\"x\":null,\"x\":null\x7d,\"value\":[]\x7d"
    writeLinks {} ls = .ok text ∧ (linksTree {} ls).depth ≤ deepest ∧
      (∀ u ∈ ls.urls, Url.parse u.text = .ok u) ∧
      ∀ ieee754Compatible, ¬ ∃ read,
        readLinks Url.parse { ieee754Compatible } (Text.Utf8.encode text) = .ok read := by
  intro ls text
  have hrejects : ∀ ieee754Compatible,
      (readLinks Url.parse { ieee754Compatible } (Text.Utf8.encode text)).isOk = false := by
    decide +kernel
  refine ⟨by decide +kernel, by decide +kernel, nofun, ?_⟩
  rintro ieee754Compatible ⟨read, hread⟩
  have hreject := hrejects ieee754Compatible
  rw [hread] at hreject
  exact Bool.noConfusion hreject

end Payload

end OData
