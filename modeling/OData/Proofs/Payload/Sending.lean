/-
# `OData.Proofs.Payload.Sending` — what goes to a stream

Writing to a stream is a loop with two ways to end: nothing is left, or there is no room.  Which of them
it is, and which bytes are held then, depends on the bytes and the room, and not on the portions or the
delays (`Sink.written`).  A single write takes a step towards this outcome (`written_step`); both loops
are induction on it.

A payload is sent only if there is one, and flushed only if all of it has gone (`sending`):

| payload | answer | held | flushes |
| :-- | :-- | :-- | :-- |
| none, for an error | the error | nothing | 0 |
| more than there is room for | the stream's reason | as much as there is room for | 0 |
| one that fits | that of flushing | all | 1 |
-/
import Mathlib
import OData.Payload.Slow

namespace OData.Payload

namespace Sink

variable {s : Sink} {bytes : List UInt8} {n : Nat}

/-! ## One write -/

/-- The stream with more bytes in it. -/
def hold (s : Sink) (more : List UInt8) : Sink := { s with held := s.held ++ more }

theorem hold_nil (s : Sink) : s.hold [] = s := by
  rw [hold, List.append_nil]

theorem hold_hold (s : Sink) (more more' : List UInt8) :
    (s.hold more).hold more' = s.hold (more ++ more') := by
  simp only [hold, List.append_assoc]

theorem room_le (s : Sink) (wanted : Nat) : s.room wanted ≤ wanted := by
  unfold room
  split
  · exact Nat.min_le_left ..
  · exact Nat.le_refl _

/-- Of a portion there is as much room as of the whole, up to the portion. -/
theorem room_min (s : Sink) (wanted n : Nat) : s.room (min wanted n) = min (s.room wanted) n := by
  unfold room
  split
  · exact Nat.min_right_comm ..
  · rfl

theorem room_hold (hn : n ≤ s.room bytes.length) :
    (s.hold (bytes.take n)).room (bytes.drop n).length = s.room bytes.length - n := by
  have hlength : (bytes.take n).length = n := List.length_take_of_le (hn.trans (s.room_le _))
  unfold room hold at *
  cases hcapacity : s.capacity with
  | none => simp only [List.length_drop]
  | some capacity =>
      simp only [hcapacity, List.length_drop, List.length_append, hlength] at hn ⊢
      omega

/-- A write fails for want of room, or it takes bytes that there is room for. -/
theorem write_cases (s : Sink) (hbytes : bytes ≠ []) :
    (s.room bytes.length = 0 ∧ s.write bytes = .error s.reason) ∨
      ∃ n, 0 < n ∧ n ≤ s.room bytes.length ∧
        s.write bytes = .ok (bytes.drop n, s.hold (bytes.take n)) := by
  have hlength : 0 < bytes.length := List.length_pos_iff.2 hbytes
  have htaken : s.room (min bytes.length (max 1 (s.portion s.held.length))) =
      min (s.room bytes.length) (max 1 (s.portion s.held.length)) := s.room_min _ _
  by_cases hroom : s.room bytes.length = 0
  · refine .inl ⟨hroom, if_pos ?_⟩
    rw [htaken, hroom, Nat.zero_min]
  · refine .inr ⟨min (s.room bytes.length) (max 1 (s.portion s.held.length)), ?_, ?_, ?_⟩
    · omega
    · exact Nat.min_le_left ..
    · simp only [write, htaken]
      exact if_neg (by omega)

/-! ## The outcome of writing -/

/-- What writing `bytes` comes to. -/
def written (s : Sink) (bytes : List UInt8) : Except String Unit × Sink :=
  (if s.room bytes.length = bytes.length then .ok () else .error s.reason,
    s.hold (bytes.take (s.room bytes.length)))

theorem written_nil (s : Sink) : s.written [] = (.ok (), s) := by
  have hroom : s.room 0 = 0 := Nat.le_zero.1 (s.room_le 0)
  rw [written, List.length_nil, if_pos hroom, List.take_nil, hold_nil]

/-- A write is a step towards the outcome. -/
theorem written_step (s : Sink) (hbytes : bytes ≠ []) :
    s.written bytes =
      match s.write bytes with
      | .error reason => (.error reason, s)
      | .ok (rest, later) => later.written rest := by
  have hlength : 0 < bytes.length := List.length_pos_iff.2 hbytes
  rcases s.write_cases hbytes with ⟨hroom, hwrite⟩ | ⟨n, hpos, hle, hwrite⟩
  · have hshort : s.room bytes.length ≠ bytes.length := by omega
    rw [hwrite, written, if_neg hshort, hroom, List.take_zero, hold_nil]
  -- The bytes taken make the room smaller by their number, so that the whole fits if the rest fits now.
  · have hwhole := s.room_le bytes.length
    have hfits : s.room bytes.length - n = (bytes.drop n).length ↔
        s.room bytes.length = bytes.length := by
      rw [List.length_drop]
      omega
    have htake : bytes.take (s.room bytes.length) =
        bytes.take n ++ (bytes.drop n).take (s.room bytes.length - n) := by
      rw [← List.take_add, Nat.add_sub_cancel' hle]
    rw [hwrite]
    simp only [written, room_hold hle, hfits, hold_hold, ← htake]
    rfl

theorem writeFrom_eq_written {fuel : Nat} (hfuel : bytes.length ≤ fuel) :
    s.writeFrom fuel bytes = s.written bytes := by
  -- On the fuel; a write that does not fail takes a byte, so that the fuel lasts.
  induction fuel generalizing s bytes with
  | zero =>
      have hnil : bytes = [] := List.length_eq_zero_iff.1 (Nat.le_zero.1 hfuel)
      rw [hnil, written_nil]
      rfl
  | succ fuel ih =>
      rw [writeFrom]
      split
      · next hnil => rw [List.isEmpty_iff.1 hnil, written_nil]
      · next hbytes =>
          rw [written_step s (mt List.isEmpty_iff.2 hbytes)]
          cases hwrite : s.write bytes with
          | error reason => rfl
          | ok r =>
              obtain ⟨rest, later⟩ := r
              have hlength := length_of_write hbytes hwrite
              exact ih (by omega)

theorem writeAll_eq_written (s : Sink) (bytes : List UInt8) : s.writeAll bytes = s.written bytes :=
  writeFrom_eq_written (Nat.le_refl _)

end Sink

/-! ## Streams that keep one waiting -/

namespace SlowSink

variable {s later : SlowSink} {bytes : List UInt8}

theorem sink_of_notYet (h : s.write bytes = .notYet later) : later.sink = s.sink := by
  unfold write at h
  split at h
  · cases h
    rfl
  · split at h <;> cases h

theorem write_of_failed {reason : String} (h : s.write bytes = .failed reason) :
    s.sink.write bytes = .error reason := by
  unfold write at h
  split at h
  · cases h
  · split at h
    · next hwrite =>
        cases h
        exact hwrite
    · cases h

theorem write_of_taken {rest : List UInt8} (h : s.write bytes = .taken rest later) :
    s.sink.write bytes = .ok (rest, later.sink) := by
  unfold write at h
  split at h
  · cases h
  · split at h
    · cases h
    · next hwrite =>
        cases h
        exact hwrite

/-- An answer, and the stream as it is without regard to delays. -/
def settled {α : Type} (r : α × SlowSink) : α × Sink := (r.1, r.2.sink)

/-- Being put off changes nothing. -/
theorem writeAll_eq_written (s : SlowSink) (bytes : List UInt8) :
    settled (s.writeAll bytes) = s.sink.written bytes := by
  fun_induction writeAll s bytes with
  | case1 s bytes hnil => rw [List.isEmpty_iff.1 hnil, Sink.written_nil, settled]
  | case2 s bytes hbytes later hreply ih => rw [ih, sink_of_notYet hreply]
  | case3 s bytes hbytes reason hreply =>
      rw [Sink.written_step _ (mt List.isEmpty_iff.2 hbytes), write_of_failed hreply, settled]
  | case4 s bytes hbytes rest later hreply ih =>
      rw [Sink.written_step _ (mt List.isEmpty_iff.2 hbytes), write_of_taken hreply, ih]

theorem flush_eq_flush (s : SlowSink) : settled s.flush = s.sink.flush := by
  fun_induction flush s with
  | case1 s hwaits ih => exact ih
  | case2 s hready result sink hflush => rw [hflush, settled]

/-- A stream that keeps one waiting comes to the same as one that does not. -/
theorem send_eq_send (s : SlowSink) (payload : Except PayloadError String) :
    settled (s.send payload) = s.sink.send payload := by
  cases payload with
  | error e => rfl
  | ok text =>
      have hwrite : settled (s.writeAll (Text.Utf8.encode text)) =
          s.sink.writeAll (Text.Utf8.encode text) := by
        rw [writeAll_eq_written, Sink.writeAll_eq_written]
      unfold send Sink.send
      simp only [← hwrite]
      obtain ⟨result, later⟩ := s.writeAll (Text.Utf8.encode text)
      cases result with
      | error reason => rfl
      | ok _ =>
          simp only [settled, ← flush_eq_flush]

end SlowSink

/-! ## Payloads -/

/-- So many bytes are no more than a stream of this capacity can hold. -/
def Fits (capacity : Option Nat) (n : Nat) : Prop := ∀ c ∈ capacity, n ≤ c

instance (capacity : Option Nat) (n : Nat) : Decidable (Fits capacity n) :=
  inferInstanceAs (Decidable (∀ c ∈ capacity, n ≤ c))

/-- `held` is the longest beginning of `bytes` that a stream of this capacity can hold. -/
structure LongestFit (capacity : Option Nat) (bytes held : List UInt8) : Prop where
  begins : held <+: bytes
  fits : Fits capacity held.length
  longest : ∀ more, more <+: bytes → Fits capacity more.length → more <+: held

/-- As many of `bytes` as a stream of this capacity can hold. -/
def kept (capacity : Option Nat) (bytes : List UInt8) : List UInt8 := capacity.elim bytes bytes.take

variable {capacity : Option Nat} {flushFault : Option String} {reason : String} {bytes : List UInt8}

theorem longestFit_kept (capacity : Option Nat) (bytes : List UInt8) :
    LongestFit capacity bytes (kept capacity bytes) := by
  cases capacity with
  | none =>
      refine ⟨List.prefix_rfl, ?_, fun more hmore _ => hmore⟩
      intro c hc
      cases hc
  | some c =>
      refine ⟨List.take_prefix c bytes, ?_, ?_⟩
      · rintro _ ⟨⟩
        exact List.length_take_le c bytes
      · intro more hmore hfits
        exact List.prefix_take_iff.2 ⟨hmore, hfits c rfl⟩

theorem kept_of_fits (h : Fits capacity bytes.length) : kept capacity bytes = bytes := by
  cases capacity with
  | none => rfl
  | some c => exact List.take_of_length_le (h c rfl)

/-- What comes of sending: the answer, the bytes that the stream holds, and how often it was flushed. -/
structure Sending where
  result : Except PayloadError Unit
  held : List UInt8
  flushes : Nat

/-- What comes of sending a payload to a stream that holds nothing. -/
def sending (capacity : Option Nat) (flushFault : Option String) (reason : String) :
    Except PayloadError String → Sending
  | .error e => ⟨.error e, [], 0⟩
  | .ok text =>
    let bytes := Text.Utf8.encode text
    if Fits capacity bytes.length then ⟨flushFault.elim (.ok ()) (.error <| .stream ·), bytes, 1⟩
    else ⟨.error (.stream reason), kept capacity bytes, 0⟩

theorem sending_of_fits {text : String} (h : Fits capacity (Text.Utf8.encode text).length) :
    sending capacity flushFault reason (.ok text) =
      ⟨flushFault.elim (.ok ()) (.error <| .stream ·), Text.Utf8.encode text, 1⟩ :=
  if_pos h

theorem sending_of_not_fits {text : String} (h : ¬ Fits capacity (Text.Utf8.encode text).length) :
    sending capacity flushFault reason (.ok text) =
      ⟨.error (.stream reason), kept capacity (Text.Utf8.encode text), 0⟩ :=
  if_neg h

theorem held_sending (capacity : Option Nat) (flushFault : Option String) (reason text : String) :
    (sending capacity flushFault reason (.ok text)).held = kept capacity (Text.Utf8.encode text) := by
  by_cases h : Fits capacity (Text.Utf8.encode text).length
  · rw [sending_of_fits h, kept_of_fits h]
  · rw [sending_of_not_fits h]

/-- What shows of an answer and the stream behind it. -/
def Sink.shown (r : Except PayloadError Unit × Sink) : Sending := ⟨r.1, r.2.held, r.2.flushes⟩

theorem Sink.room_fresh (capacity : Option Nat) (flushFault : Option String) (reason : String)
    (portion : Nat → Nat) (bytes : List UInt8) :
    let s : Sink := { capacity, portion, flushFault, reason }
    (s.room bytes.length = bytes.length ↔ Fits capacity bytes.length) ∧
      bytes.take (s.room bytes.length) = kept capacity bytes := by
  intro s
  cases capacity with
  | none =>
      refine ⟨⟨?_, fun _ => rfl⟩, List.take_length⟩
      intro _ c hc
      cases hc
  | some c =>
      have hroom : s.room bytes.length = min bytes.length c := rfl
      rw [hroom]
      refine ⟨?_, ?_⟩
      · simp only [Fits, Option.mem_some_iff, forall_eq']
        exact min_eq_left_iff
      · exact List.take_eq_take_iff.2 (by omega)

theorem Sink.shown_send (portion : Nat → Nat) (payload : Except PayloadError String) :
    shown (send { capacity, portion, flushFault, reason } payload) =
      sending capacity flushFault reason payload := by
  cases payload with
  | error e => rfl
  | ok text =>
      obtain ⟨hfits, hkept⟩ :=
        room_fresh capacity flushFault reason portion (Text.Utf8.encode text)
      rw [send, writeAll_eq_written, written, hkept]
      by_cases h : Fits capacity (Text.Utf8.encode text).length
      · rw [sending_of_fits h, if_pos (hfits.2 h), kept_of_fits h]
        cases flushFault <;> rfl
      · rw [sending_of_not_fits h, if_neg (mt hfits.1 h)]
        rfl

/-- A payload is sent whole and flushed, or as much of it is sent as there is room for; and nothing is
sent of a payload that could not be written.  Neither the portions that the stream takes nor whether
one has to wait for it makes a difference. -/
theorem sends_all_or_longest_fit (settings : WriterSettings) (ls : ReferenceLinks) (l : ReferenceLink)
    (capacity : Option Nat) (flushFault : Option String) (reason : String)
    (portion portion' delay : Nat → Nat) (flushDelay : Nat) :
    let sink : Sink := { capacity, portion, flushFault, reason }
    let slow : SlowSink :=
      { sink := { capacity, portion := portion', flushFault, reason }, delay, flushDelay }
    let sent := sending capacity flushFault reason
    let links := sent (writeLinks settings ls)
    let link := sent (writeLink settings l)
    Sink.shown (writeLinksTo settings sink ls) = links ∧
      Sink.shown (SlowSink.settled (awaitLinksTo settings slow ls)) = links ∧
      Sink.shown (writeLinkTo settings sink l) = link ∧
      Sink.shown (SlowSink.settled (awaitLinkTo settings slow l)) = link ∧
      (∀ e, sent (.error e) = ⟨.error e, [], 0⟩) ∧
      ∀ text, let bytes := Text.Utf8.encode text
        LongestFit capacity bytes (sent (.ok text)).held ∧
        (Fits capacity bytes.length →
          sent (.ok text) = ⟨flushFault.elim (.ok ()) (.error <| .stream ·), bytes, 1⟩) ∧
        (¬ Fits capacity bytes.length →
          (sent (.ok text)).result = .error (.stream reason) ∧ (sent (.ok text)).flushes = 0) := by
  intro sink slow sent links link
  have hslow : ∀ payload, Sink.shown (SlowSink.settled (slow.send payload)) = sent payload := by
    intro payload
    rw [SlowSink.send_eq_send]
    exact Sink.shown_send portion' payload
  refine ⟨Sink.shown_send portion _, hslow _, Sink.shown_send portion _, hslow _, fun e => rfl, ?_⟩
  intro text bytes
  refine ⟨?_, ?_, ?_⟩
  · rw [held_sending]
    exact longestFit_kept capacity bytes
  · intro hfits
    exact sending_of_fits hfits
  · intro hshort
    rw [show sent (.ok text) = _ from sending_of_not_fits hshort]
    exact ⟨rfl, rfl⟩

/-- A payload of 32 bytes goes to a stream with room for all of them, which fails when it is flushed, and
to one with room for one byte less, which is not flushed.  A link with an unfit annotation goes nowhere. -/
theorem sends_all_or_longest_fit_of_links :
    let bytes := Text.Utf8.encode "\x7b\"@odata.context\":\"\",\"value\":[]\x7d"
    let wide : Sink :=
      { capacity := some 32, portion := fun _ => 5, flushFault := some "lost", reason := "full" }
    let narrow : SlowSink :=
      { sink := { capacity := some 31, portion := fun _ => 1, reason := "full" }
        delay := fun held => held % 3 }
    let link : ReferenceLink := ⟨⟨"urn", none, .rootless "a", none, none⟩, [⟨"odata.x", .null⟩]⟩
    Fits (some 32) bytes.length ∧ ¬ Fits (some 31) bytes.length ∧
      Sink.shown (writeLinksTo {} wide {}) = ⟨.error (.stream "lost"), bytes, 1⟩ ∧
      Sink.shown (SlowSink.settled (awaitLinksTo {} narrow {})) =
        ⟨.error (.stream "full"), bytes.take 31, 0⟩ ∧
      Sink.shown (writeLinkTo {} wide link) = ⟨.error (.unfitName "odata.x"), [], 0⟩ := by
  intro bytes wide narrow link
  have hwritten : writeLinks {} {} = .ok "\x7b\"@odata.context\":\"\",\"value\":[]\x7d" := by
    decide +kernel
  have hwide : Fits (some 32) bytes.length := by decide +kernel
  have hnarrow : ¬ Fits (some 31) bytes.length := by decide +kernel
  have hunfit : writeLink {} link = .error (.unfitName "odata.x") := by decide +kernel
  obtain ⟨hlinks, _, hlink, _, _, hsent⟩ := sends_all_or_longest_fit {} {} link (some 32) (some "lost")
    "full" (fun _ => 5) (fun _ => 1) (fun held => held % 3) 0
  obtain ⟨_, hslow, _⟩ := sends_all_or_longest_fit {} {} link (some 31) none "full" (fun _ => 5)
    (fun _ => 1) (fun held => held % 3) 0
  refine ⟨hwide, hnarrow, ?_, ?_, ?_⟩
  · rw [hlinks, hwritten]
    exact (hsent _).2.1 hwide
  · rw [hslow, hwritten]
    exact sending_of_not_fits hnarrow
  · rw [hlink, hunfit]
    rfl

end OData.Payload
