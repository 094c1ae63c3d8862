/-
# `OData.Proofs.Annotation.Tracking` — names tracked over a whole pass

A pass tracks one name after the other, on the collection and on links in any order, and goes on behind
a name that is refused.  Whether a name is refused is a question about the calls alone: it is if the same
name was tracked on the same owner before, be it that it was refused then too.  A refused call could be
left out, and the rest of the pass would be the same.

`Recorded` ties what has been seen to the calls so far; how often one of them was made does not show in
it.  One call keeps it (`Recorded.track`), and the induction over a pass is from its end, since it is the
calls before that a call is judged by.
-/
import Mathlib
import OData.Annotation.SeenNames

namespace OData.SeenNames

variable {calls before after : List (AnnotationOwner × String)} {call : AnnotationOwner × String}
  {seen : SeenNames} {owner : AnnotationOwner} {name : String} {fault : RepeatedName} {i : Nat}

/-! ## What has been seen and what was tracked -/

/-- What has been seen are the names tracked in `calls`, each of them once. -/
structure Recorded (calls : List (AnnotationOwner × String)) (seen : SeenNames) : Prop where
  mem_iff : ∀ entry, entry ∈ seen.entries ↔ entry ∈ calls
  once : seen.entries.Nodup

theorem recorded_empty : Recorded [] empty := ⟨fun _ => Iff.rfl, List.nodup_nil⟩

theorem Recorded.track_of_mem (h : Recorded calls seen) (hmem : (owner, name) ∈ calls) :
    seen.track owner name = (.error ⟨name, owner⟩, seen) :=
  SeenNames.track_of_mem ((h.mem_iff _).2 hmem)

theorem Recorded.track_of_not_mem (h : Recorded calls seen) (hnew : (owner, name) ∉ calls) :
    seen.track owner name = (.ok (), ⟨(owner, name) :: seen.entries⟩) :=
  SeenNames.track_of_not_mem (mt (h.mem_iff _).1 hnew)

/-- A name is refused exactly if it was tracked before, and as itself. -/
theorem Recorded.track_eq_error_iff (h : Recorded calls seen) :
    (seen.track owner name).1 = .error fault ↔ (owner, name) ∈ calls ∧ fault = ⟨name, owner⟩ := by
  by_cases hmem : (owner, name) ∈ calls
  · rw [h.track_of_mem hmem, Except.error.injEq, and_iff_right hmem]
    exact eq_comm
  · rw [h.track_of_not_mem hmem]
    exact iff_of_false nofun fun hrefused => hmem hrefused.1

/-- A name that is refused leaves no trace. -/
theorem Recorded.track_snd_of_error (h : Recorded calls seen)
    (hfails : (seen.track owner name).1 = .error fault) : (seen.track owner name).2 = seen := by
  rw [h.track_of_mem (h.track_eq_error_iff.1 hfails).1]

theorem Recorded.track (h : Recorded calls seen) (owner : AnnotationOwner) (name : String) :
    Recorded (calls ++ [(owner, name)]) (seen.track owner name).2 := by
  by_cases hmem : (owner, name) ∈ calls
  · rw [h.track_of_mem hmem]
    refine ⟨fun entry => ?_, h.once⟩
    rw [h.mem_iff, List.mem_append, List.mem_singleton]
    exact ⟨.inl, fun hentry => hentry.elim id fun heq => heq ▸ hmem⟩
  · rw [h.track_of_not_mem hmem]
    refine ⟨fun entry => ?_, List.nodup_cons.2 ⟨mt (h.mem_iff _).1 hmem, h.once⟩⟩
    rw [List.mem_cons, h.mem_iff, List.mem_append, List.mem_singleton]
    exact or_comm

/-- An owner has as many names as were tracked on it, repetitions not counted. -/
theorem Recorded.count_eq (h : Recorded calls seen) (owner : AnnotationOwner) :
    seen.count owner = {name | (owner, name) ∈ calls}.ncard := by
  have honce : (seen.names owner).Nodup := by
    refine (h.once.filter _).map_on ?_
    intro entry hentry entry' hentry' hname
    have howner := beq_iff_eq.1 (List.mem_filter.1 hentry).2
    have howner' := beq_iff_eq.1 (List.mem_filter.1 hentry').2
    exact Prod.ext (howner.trans howner'.symm) hname
  have hnames : {name | (owner, name) ∈ calls} = ((seen.names owner).toFinset : Set String) := by
    ext name
    rw [Set.mem_ofPred_eq, ← h.mem_iff, Finset.mem_coe, List.mem_toFinset]
    simp [names]
  rw [hnames, Set.ncard_coe_finset, List.toFinset_card_of_nodup honce, count]

/-! ## Passes -/

theorem trackAll_append (before after : List (AnnotationOwner × String)) (seen : SeenNames) :
    seen.trackAll (before ++ after) =
      ((seen.trackAll before).1 ++ ((seen.trackAll before).2.trackAll after).1,
        ((seen.trackAll before).2.trackAll after).2) := by
  induction before generalizing seen with
  | nil => rfl
  | cons call before ih =>
      rw [List.cons_append, trackAll_cons, trackAll_cons, ih]
      rfl

/-- The outcomes of the calls of a pass. -/
def outcomes (calls : List (AnnotationOwner × String)) : List (Except RepeatedName Unit) :=
  (empty.trackAll calls).1

/-- What a pass has seen behind these calls. -/
def seenBehind (calls : List (AnnotationOwner × String)) : SeenNames := (empty.trackAll calls).2

theorem length_outcomes (calls : List (AnnotationOwner × String)) :
    (outcomes calls).length = calls.length := by
  induction calls using List.reverseRecOn with
  | nil => rfl
  | append_singleton calls call ih =>
      rw [outcomes, trackAll_append, List.length_append, List.length_append]
      exact congrArg (· + 1) ih

theorem recorded_seenBehind (calls : List (AnnotationOwner × String)) :
    Recorded calls (seenBehind calls) := by
  induction calls using List.reverseRecOn with
  | nil => exact recorded_empty
  | append_singleton calls call ih =>
      rw [seenBehind, trackAll_append]
      exact ih.track call.1 call.2

/-- A pass goes on behind a call with what the call leaves. -/
theorem trackAll_split (before after : List (AnnotationOwner × String))
    (call : AnnotationOwner × String) :
    empty.trackAll (before ++ call :: after) =
      (outcomes before ++ ((seenBehind before).track call.1 call.2).1 ::
          (((seenBehind before).track call.1 call.2).2.trackAll after).1,
        (((seenBehind before).track call.1 call.2).2.trackAll after).2) :=
  trackAll_append before (call :: after) empty

/-- The calls around one of them. -/
theorem eq_take_cons_drop (h : calls[i]? = some call) :
    calls = calls.take i ++ call :: calls.drop (i + 1) ∧ (calls.take i).length = i := by
  obtain ⟨hi, rfl⟩ := List.getElem?_eq_some_iff.1 h
  refine ⟨?_, List.length_take_of_le hi.le⟩
  rw [← List.drop_eq_getElem_cons hi, List.take_append_drop]

/-- What a call comes to is settled by what was seen in front of it. -/
theorem getElem?_outcomes (h : calls[i]? = some call) :
    (outcomes calls)[i]? = some ((seenBehind (calls.take i)).track call.1 call.2).1 := by
  obtain ⟨hcalls, hlength⟩ := eq_take_cons_drop h
  have hpass := congrArg Prod.fst (trackAll_split (calls.take i) (calls.drop (i + 1)) call)
  rw [← hcalls] at hpass
  rw [outcomes, hpass, List.getElem?_append_right (by rw [length_outcomes, hlength]),
    length_outcomes, hlength, Nat.sub_self]
  rfl

/-- Without a call that leaves no trace the pass is the same. -/
theorem trackAll_eraseIdx (h : calls[i]? = some call)
    (htraceless : ((seenBehind (calls.take i)).track call.1 call.2).2 = seenBehind (calls.take i)) :
    empty.trackAll (calls.eraseIdx i) = ((outcomes calls).eraseIdx i, seenBehind calls) := by
  obtain ⟨hcalls, hlength⟩ := eq_take_cons_drop h
  have hpass := trackAll_split (calls.take i) (calls.drop (i + 1)) call
  have hrest := trackAll_append (calls.take i) (calls.drop (i + 1)) empty
  have hindex : (outcomes (calls.take i)).length = i := (length_outcomes _).trans hlength
  rw [← hcalls, htraceless] at hpass
  rw [List.eraseIdx_eq_take_drop_succ, hrest, outcomes, seenBehind, hpass,
    List.eraseIdx_append_of_length_le hindex.le, hindex, Nat.sub_self]
  rfl

/-- In any pass, a call fails exactly if an earlier one had the same owner and the same name, and the
fault names the two; what has been seen on an owner at any time is the number of different names tracked
on it so far; and a call that fails changes nothing, neither what has been seen nor what becomes of the
other calls. -/
theorem refuses_exactly_repeats (calls : List (AnnotationOwner × String)) :
    (outcomes calls).length = calls.length ∧
    (∀ i owner name, calls[i]? = some (owner, name) → ∀ fault,
      (outcomes calls)[i]? = some (.error fault) ↔
        (owner, name) ∈ calls.take i ∧ fault = ⟨name, owner⟩) ∧
    (∀ i owner, (seenBehind (calls.take i)).count owner =
      {name | (owner, name) ∈ calls.take i}.ncard) ∧
    ∀ i fault, (outcomes calls)[i]? = some (.error fault) →
      seenBehind (calls.take (i + 1)) = seenBehind (calls.take i) ∧
      outcomes (calls.eraseIdx i) = (outcomes calls).eraseIdx i ∧
      seenBehind (calls.eraseIdx i) = seenBehind calls := by
  refine ⟨length_outcomes calls, fun i owner name hcall fault => ?_, fun i owner => ?_,
    fun i fault hfails => ?_⟩
  · rw [getElem?_outcomes hcall, Option.some.injEq]
    exact (recorded_seenBehind _).track_eq_error_iff
  · exact (recorded_seenBehind _).count_eq owner
  · have hi : i < calls.length := length_outcomes calls ▸ (List.getElem?_eq_some_iff.1 hfails).1
    have hcall : calls[i]? = some calls[i] := List.getElem?_eq_getElem hi
    rw [getElem?_outcomes hcall, Option.some.injEq] at hfails
    have htraceless := (recorded_seenBehind (calls.take i)).track_snd_of_error hfails
    have hwithout := trackAll_eraseIdx hcall htraceless
    refine ⟨?_, by rw [outcomes, hwithout], by rw [seenBehind, hwithout]⟩
    rw [List.take_succ_eq_append_getElem hi, seenBehind, trackAll_append]
    exact htraceless

/-- A name tracked for the second time on the collection, behind the same name on a link and the name in
capitals, which are other calls. -/
theorem refuses_exactly_repeats_interleaved :
    let calls : List (AnnotationOwner × String) :=
      [(.collection, "n.a"), (.link 0, "n.a"), (.collection, "N.A"), (.collection, "n.a"),
        (.link 0, "n.b"), (.collection, "n.a")]
    (outcomes calls)[3]? = some (.error ⟨"n.a", .collection⟩) ∧
      (∀ fault, (outcomes calls)[2]? ≠ some (.error fault)) ∧
      (seenBehind (calls.take 4)).count .collection =
        {name | (.collection, name) ∈ calls.take 4}.ncard ∧
      seenBehind (calls.take 4) = seenBehind (calls.take 3) ∧
      outcomes (calls.eraseIdx 3) = (outcomes calls).eraseIdx 3 ∧
      seenBehind (calls.eraseIdx 3) = seenBehind calls := by
  intro calls
  obtain ⟨-, hfails, hcount, htraceless⟩ := refuses_exactly_repeats calls
  have hrefused := (hfails 3 .collection "n.a" rfl ⟨"n.a", .collection⟩).2 ⟨by decide, rfl⟩
  refine ⟨hrefused, fun fault hcapitals => ?_, hcount 4 .collection, htraceless 3 _ hrefused⟩
  exact absurd ((hfails 2 .collection "N.A" rfl fault).1 hcapitals).1 (by decide)

end OData.SeenNames
