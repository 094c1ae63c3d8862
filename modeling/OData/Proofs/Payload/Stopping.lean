/-
# `OData.Proofs.Payload.Stopping` — a flaw in a value of a payload

A payload whose text has a flaw in one value and nothing wrong with it in front of that value is
reported with the flaw.  The value may be that of a custom annotation, on the collection, on a link of
its list or on a link that stands alone, or the number of links.

The readers in front of the flaw are those of well-formed payloads, so what is known of them is used as
it is: the invariants of reading say in which state the flawed value is reached, and that nothing has
been turned down on the way.
-/
import OData.Proofs.Payload.Reading

namespace OData.Payload

open Json Json.Scan Json.Tree

variable {parseUrl : Url.Parser} {settings : ReaderSettings} {flaw : Flaw} {room : Nat}
  {owner : AnnotationOwner} {alone : Bool} {seen : SeenNames} {name n : String}
  {i gap gap' lead front back : List UInt8}
  {before after : List (String × Tree)} {t : Tree}

/-- What comes next is a value with the flaw at its start, whatever blanks may be in front of it. -/
def Flawed (flaw : Flaw) (input : List UInt8) : Prop :=
  ∀ gap, Blank gap → Stops (ρ := Refusal) flaw start (gap ++ input)

/-! ## One value -/

theorem Flawed.readCount (hi : Flawed flaw i) (hgap : Blank gap) (hgap' : Blank gap') :
    Stops flaw (member (readCount room)) (gap ++ Byte.colon :: (gap' ++ i)) :=
  (((hi gap' hgap').bind _).located).member hgap

/-- A custom annotation whose name has not been read before. -/
theorem Flawed.readOne {annotations : Annotations} (hi : Flawed flaw i)
    (h : AnnotationsSoFar settings owner before seen annotations) (hcustom : customName? name = some n)
    (hnew : name ∉ before.map Prod.fst) (hgap : Blank gap) (hgap' : Blank gap') :
    Stops flaw (readOne settings room owner n seen annotations)
      (gap ++ Byte.colon :: (gap' ++ i)) := by
  have hreserved := (customName?_eq_some_iff.1 hcustom).2
  have hunseen : (owner, n) ∉ seen.entries := by
    rw [h.names]
    exact fun hmem => hnew (mem_names_of_mem_customNames hcustom hmem)
  unfold Payload.readOne
  rw [if_neg (Bool.eq_false_iff.1 hreserved), SeenNames.insert_of_not_mem hunseen]
  exact ((Value.stops_scan (hi gap' hgap') room).member hgap).bind _

/-! ## Links -/

theorem Flawed.readLinkMember {d : LinkDraft} (hi : Flawed flaw i)
    (hd : LinkSoFar parseUrl settings owner alone seen before d) (hcustom : customName? name = some n)
    (hnew : name ∉ before.map Prod.fst) (hgap : Blank gap) (hgap' : Blank gap') :
    Stops flaw (readLinkMember parseUrl settings room owner alone d name)
      (gap ++ Byte.colon :: (gap' ++ i)) := by
  have hsome : (customName? name).isSome := by simp [hcustom]
  have hid := (ne_of_isCustom customName?_id hsome).symm
  have hcontext := (ne_of_isCustom customName?_context hsome).symm
  unfold Payload.readLinkMember
  rw [if_neg hid, if_neg fun h => hcontext h.1, (customName?_eq_some_iff.1 hcustom).1]
  exact (hi.readOne hd.annotations hcustom hnew hgap hgap').bind _

/-- A link with a flaw in the value of an annotation, and nothing out of place in front of it. -/
theorem Flawed.readLinkObject (hi : Flawed flaw i) (hfresh : ∀ n, (owner, n) ∉ seen.entries)
    (hmembers : Members (LinkMember parseUrl alone) (before ++ (name, t) :: after))
    (hcustom : customName? name = some n) (hdepth : ∀ m ∈ before, m.2.depth ≤ room)
    (hfront : MembersUpTo true before name front) (hlead : Blank lead) :
    Stops flaw (readLinkObject parseUrl settings (room + 1) owner alone seen)
      (lead ++ Byte.openBrace :: (front ++ i)) := by
  refine (Stops.after (passes_start_object hlead _) (.objectOpening (.bind ?_ _))).located
  refine stops_members (LinkSoFar parseUrl settings owner alone seen) hfront (linkSoFar_nil hfresh) ?_ ?_
  · intro done other t' left d m o hbefore hd hm
    have hmem : (other, t') ∈ before := by simp [hbefore]
    have hwhole : before ++ (name, t) :: after =
        done ++ (other, t') :: (left ++ (name, t) :: after) := by simp [hbefore]
    refine (yields_readLinkMember hd hm hwhole (hdepth _ hmem)).mono (fun _ h => h) ?_
    exact fun hbad => hbad hmembers
  · intro d gap gap' hd hgap hgap'
    exact hi.readLinkMember hd hcustom hmembers.fresh_next hgap hgap'

/-- A list of links, one of which has such a flaw. -/
theorem Flawed.readLinkList {links : List Tree} {upTo : List UInt8} (hi : Flawed flaw i)
    (hfresh : ∀ index n, (.link index, n) ∉ seen.entries)
    (hlinks : ∀ t ∈ links, IsLink parseUrl false t)
    (hmembers : Members (LinkMember parseUrl false) (before ++ (name, t) :: after))
    (hcustom : customName? name = some n) (hdepth : ∀ t ∈ links, t.depth ≤ room + 1)
    (hdepth' : ∀ m ∈ before, m.2.depth ≤ room) (hupTo : ItemsUpTo true links upTo)
    (hfront : MembersUpTo true before name front) (hlead : Blank lead) :
    Stops flaw (readLinkList parseUrl settings (room + 2) seen)
      (lead ++ Byte.openBracket :: (upTo ++ Byte.openBrace :: (front ++ i))) := by
  refine (Stops.after (passes_start_list hlead _) (.listOpening (.bind ?_ _))).located
  refine stops_items (ListSoFar parseUrl settings seen) hupTo (ListSoFar.nil hfresh) ?_ ?_ rfl rfl
    (by decide)
  · intro done t' left state m o hbefore hstate hm
    have hmem : t' ∈ links := by simp [hbefore]
    refine (yields_readLinkItem hstate hbefore (hdepth t' hmem) hm).mono (fun _ h => h) ?_
    exact fun hbad => hbad hlinks
  · rintro ⟨seen', read⟩ hstate
    have hlength : read.length = links.length := hstate.length
    have hfresh' : ∀ n, (.link read.length, n) ∉ seen'.entries := by
      intro n
      exact hstate.fresh read.length n (by omega)
    exact (hi.readLinkObject hfresh' hmembers hcustom hdepth' hfront blank_nil).bind _

/-! ## Collections -/

theorem Slot.eq_none {α : Type} {f : Tree → Option α} {slot : Option α} (h : Slot f name before slot)
    (hnew : name ∉ before.map Prod.fst) : slot = none := by
  rw [h, lookup_eq_none_of_not_mem hnew]
  rfl

section LinksStep

variable {d : LinksDraft} (hd : LinksSoFar parseUrl settings before d)
include hd

theorem Flawed.readLinksMember_count (hi : Flawed flaw i) (hnew : count ∉ before.map Prod.fst)
    (hgap : Blank gap) (hgap' : Blank gap') :
    Stops flaw (readLinksMember parseUrl settings room d count) (gap ++ Byte.colon :: (gap' ++ i)) := by
  rw [readLinksMember, if_neg (by decide), if_pos rfl, hd.count.eq_none hnew]
  exact (hi.readCount hgap hgap').bind _

theorem Flawed.readLinksMember_custom (hi : Flawed flaw i) (hcustom : customName? name = some n)
    (hnew : name ∉ before.map Prod.fst) (hgap : Blank gap) (hgap' : Blank gap') :
    Stops flaw (readLinksMember parseUrl settings room d name) (gap ++ Byte.colon :: (gap' ++ i)) := by
  have hsome : (customName? name).isSome := by simp [hcustom]
  rw [readLinksMember, if_neg (ne_of_isCustom customName?_context hsome).symm,
    if_neg (ne_of_isCustom customName?_count hsome).symm,
    if_neg (ne_of_isCustom customName?_nextLink hsome).symm,
    if_neg (ne_of_isCustom customName?_value hsome).symm, (customName?_eq_some_iff.1 hcustom).1]
  exact (hi.readOne hd.annotations hcustom hnew hgap hgap').bind _

theorem stops_readLinksMember_value (hnew : value ∉ before.map Prod.fst) (hgap : Blank gap)
    (h : ∀ seen : SeenNames, (∀ index n, (.link index, n) ∉ seen.entries) →
      Stops flaw (readLinkList parseUrl settings room seen) i) :
    Stops flaw (readLinksMember parseUrl settings room d value) (gap ++ Byte.colon :: i) := by
  have hnone := hd.links.eq_none hnew
  rw [readLinksMember, if_neg (by decide), if_neg (by decide), if_neg (by decide), if_pos rfl, hnone]
  exact ((h d.seen (hd.fresh hnone)).member hgap).bind _

end LinksStep

/-- A collection in which one member stops its reader, and nothing is out of place in front of it. -/
theorem stops_readLinksObject (hmembers : Members (LinksMember parseUrl) (before ++ (name, t) :: after))
    (hdepth : ∀ m ∈ before, m.2.depth ≤ room) (hfront : MembersUpTo true before name front)
    (hlead : Blank lead)
    (hlast : ∀ d gap gap', LinksSoFar parseUrl settings before d → Blank gap → Blank gap' →
      Stops flaw (readLinksMember parseUrl settings room d name) (gap ++ Byte.colon :: (gap' ++ i))) :
    Stops flaw (readLinksObject parseUrl settings (room + 1))
      (lead ++ Byte.openBrace :: (front ++ i)) := by
  refine (Stops.after (passes_start_object hlead _) (.objectOpening (.bind ?_ _))).located
  refine stops_members (LinksSoFar parseUrl settings) hfront (linksSoFar_nil settings) ?_ hlast
  intro done other t' left d m o hbefore hd hm
  have hmem : (other, t') ∈ before := by simp [hbefore]
  have hwhole : before ++ (name, t) :: after =
      done ++ (other, t') :: (left ++ (name, t) :: after) := by simp [hbefore]
  refine (yields_readLinksMember hd hm (hdepth _ hmem) hwhole).mono (fun _ h => h) ?_
  exact fun hbad => hbad hmembers

end OData.Payload
