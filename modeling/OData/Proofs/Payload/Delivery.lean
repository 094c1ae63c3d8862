/-
# `OData.Proofs.Payload.Delivery` — what comes of a stream

Reading from a stream is a loop with three ways to end: there is no more room, the stream ends, the
stream fails.  Which of them it is, and with which bytes, depends on the bytes of the stream and the
place where it fails, and not on the portions or the delays (`Source.collected`).  A single read takes
a step towards this outcome (`collected_step`); both loops are induction on it.

With the limit of a payload in place of the room, this says when a payload is too large, when it is
lost, and when it is read as if it had been in memory all along (`delivered`).
-/
import Mathlib
import OData.Payload.Slow
import OData.Url.Parse

namespace OData.Payload

namespace Source

variable {s : Source} {room n : Nat}

/-! ## One read -/

/-- How many bytes are still to come, until the stream ends or fails. -/
def reach (s : Source) : Nat :=
  s.failAt.elim s.rest.length fun limit => min s.rest.length (limit - s.offset)

/-- The stream fails where its bytes end, or before. -/
def fails (s : Source) : Bool := s.failAt.any (· ≤ s.offset + s.rest.length)

/-- The stream behind `n` more bytes. -/
def skip (s : Source) (n : Nat) : Source :=
  { s with rest := s.rest.drop n, offset := s.offset + n }

theorem reach_le (s : Source) : s.reach ≤ s.rest.length := by
  unfold reach
  cases s.failAt with
  | none => exact Nat.le_refl _
  | some limit => exact Nat.min_le_left ..

theorem reach_skip (s : Source) (n : Nat) : (s.skip n).reach = s.reach - n := by
  unfold reach skip
  cases s.failAt with
  | none => exact List.length_drop
  | some limit =>
      simp only [Option.elim_some, List.length_drop]
      omega

theorem fails_skip (h : n ≤ s.rest.length) : (s.skip n).fails = s.fails := by
  have hplace : s.offset + n + (s.rest.length - n) = s.offset + s.rest.length := by omega
  simp only [fails, skip, List.length_drop, hplace]

/-- The stream has come to the place where it fails. -/
def Failed (s : Source) : Prop := s.failAt.any (· ≤ s.offset) = true

theorem failed_iff : s.Failed ↔ ∃ limit, s.failAt = some limit ∧ limit ≤ s.offset := by
  simp [Failed, Option.any_eq_true]

theorem reach_of_failed (h : s.Failed) : s.reach = 0 ∧ s.fails = true := by
  obtain ⟨limit, hfail, hplace⟩ := failed_iff.1 h
  refine ⟨?_, ?_⟩
  · rw [reach, hfail, Option.elim_some, Nat.sub_eq_zero_of_le hplace, Nat.min_zero]
  · rw [fails, hfail, Option.any_some]
    exact decide_eq_true (Nat.le_trans hplace (Nat.le_add_right ..))

theorem read_of_failed (h : s.Failed) : s.read room = .error s.reason := if_pos h

/-- A read that goes ahead wants at least one byte, and none from behind the place where the stream
fails. -/
theorem available_spec (h : ¬ s.Failed) (hroom : 0 < room) :
    0 < s.available room ∧ s.available room ≤ room ∧
      min (s.available room) s.rest.length ≤ s.reach := by
  unfold available reach
  cases hfail : s.failAt with
  | none =>
      simp only [Option.elim_none]
      omega
  | some limit =>
      have hplace : s.offset < limit := Nat.lt_of_not_le fun hle => h (failed_iff.2 ⟨limit, hfail, hle⟩)
      simp only [Option.elim_some]
      omega

/-- A read that goes ahead yields the next bytes and leaves the stream behind them. -/
theorem read_of_not_failed (h : ¬ s.Failed) :
    let n := min (s.available room) s.rest.length
    s.read room = .ok (s.rest.take n, s.skip n) := by
  intro n
  have htake : s.rest.take (s.available room) = s.rest.take n := by
    refine List.take_eq_take_iff.2 ?_
    omega
  have hlength : (s.rest.take n).length = n := by
    rw [← htake]
    exact List.length_take
  refine (if_neg h).trans ?_
  simp only [htake, hlength]
  rfl

/-- A stream without bytes fails only if it has come to where it does. -/
theorem fails_of_rest_nil (h : ¬ s.Failed) (hrest : s.rest = []) : s.fails = false := by
  have hfails : s.fails = s.failAt.any (· ≤ s.offset) := by
    rw [fails, hrest]
    rfl
  rw [hfails]
  exact Bool.eq_false_iff.2 h

/-- A read fails, or it finds the stream at its end, or it takes bytes that are still to come. -/
theorem read_cases (s : Source) (hroom : 0 < room) :
    (s.reach = 0 ∧ s.fails = true ∧ s.read room = .error s.reason) ∨
      (s.rest = [] ∧ s.fails = false ∧ s.read room = .ok ([], s)) ∨
      ∃ n, 0 < n ∧ n ≤ room ∧ n ≤ s.reach ∧ s.read room = .ok (s.rest.take n, s.skip n) := by
  by_cases hfailed : s.Failed
  · obtain ⟨hreach, hfails⟩ := reach_of_failed hfailed
    exact .inl ⟨hreach, hfails, read_of_failed hfailed⟩
  obtain ⟨hpos, hle, hreach⟩ := available_spec hfailed hroom
  have hread : s.read room = .ok _ := read_of_not_failed hfailed
  by_cases hrest : s.rest = []
  · refine .inr (.inl ⟨hrest, fails_of_rest_nil hfailed hrest, ?_⟩)
    rw [hread, hrest, List.length_nil, Nat.min_zero, List.take_nil]
    rfl
  · have hlength := List.length_pos_iff.2 hrest
    refine .inr (.inr ⟨_, ?_, ?_, hreach, hread⟩)
    · omega
    · omega

theorem length_of_read {bytes : List UInt8} {later : Source} (h : s.read room = .ok (bytes, later)) :
    later.rest.length + bytes.length = s.rest.length := by
  unfold read at h
  split at h
  · cases h
  · cases h
    simp only [List.length_drop, List.length_take]
    omega

/-! ## The outcome of reading -/

/-- An outcome whose bytes come behind those in `held`. -/
def behind (held : List UInt8) (outcome : Except String (List UInt8)) : Except String (List UInt8) :=
  outcome.map (held ++ ·)

theorem behind_nil (outcome : Except String (List UInt8)) : behind [] outcome = outcome := by
  cases outcome <;> rfl

theorem behind_behind (held bytes : List UInt8) (outcome : Except String (List UInt8)) :
    behind held (behind bytes outcome) = behind (held ++ bytes) outcome := by
  cases outcome with
  | error reason => rfl
  | ok more => exact congrArg Except.ok (List.append_assoc held bytes more).symm

theorem behind_ok_nil (held : List UInt8) : behind held (.ok []) = .ok held :=
  congrArg Except.ok (List.append_nil held)

/-- What reading `room` bytes comes to. -/
def collected (s : Source) (room : Nat) : Except String (List UInt8) :=
  if room ≤ s.reach then .ok (s.rest.take room)
  else if s.fails then .error s.reason
  else .ok s.rest

theorem collected_zero (s : Source) : s.collected 0 = .ok [] := by
  rw [collected, if_pos (Nat.zero_le _), List.take_zero]

/-- Behind `n` bytes, the rest of the outcome is that of the rest of the stream. -/
theorem collected_skip (hroom : n ≤ room) (hreach : n ≤ s.reach) :
    s.collected room = behind (s.rest.take n) ((s.skip n).collected (room - n)) := by
  have hlength : n ≤ s.rest.length := Nat.le_trans hreach s.reach_le
  have hgoes : room - n ≤ s.reach - n ↔ room ≤ s.reach := by omega
  rw [collected, collected, reach_skip, fails_skip hlength]
  simp only [hgoes]
  split
  · have htake : s.rest.take room = s.rest.take n ++ (s.rest.drop n).take (room - n) := by
      rw [← List.take_add, Nat.add_sub_cancel' hroom]
    rw [htake]
    rfl
  split
  · rfl
  · have hall : s.rest = s.rest.take n ++ s.rest.drop n := (List.take_append_drop n s.rest).symm
    exact congrArg Except.ok hall

/-- A read is a step towards the outcome. -/
theorem collected_step (s : Source) (hroom : 0 < room) :
    s.collected room =
      match s.read room with
      | .error reason => .error reason
      | .ok (bytes, later) =>
        if bytes.isEmpty then .ok []
        else behind bytes (later.collected (room - bytes.length)) := by
  -- A read fails, or it finds the end, or it takes bytes that are there.
  rcases s.read_cases hroom with ⟨hreach, hfails, hread⟩ | ⟨hrest, hfails, hread⟩ |
    ⟨n, hpos, hle, hreach, hread⟩
  · have hmore : ¬ room ≤ s.reach := by omega
    rw [hread, collected, if_neg hmore, if_pos hfails]
  · have hmore : ¬ room ≤ s.reach := by
      have hnone := s.reach_le
      rw [hrest, List.length_nil] at hnone
      omega
    rw [hread, collected, if_neg hmore, hfails, hrest]
    rfl
  · have hlength : (s.rest.take n).length = n :=
      List.length_take_of_le (Nat.le_trans hreach s.reach_le)
    have hbytes : (s.rest.take n).isEmpty = false := by
      rw [List.isEmpty_eq_false_iff, ← List.length_pos_iff, hlength]
      exact hpos
    rw [hread, collected_skip hle hreach]
    simp only [hbytes, hlength]
    rfl

theorem collectFrom_eq_collected {fuel : Nat} {held : List UInt8} (hfuel : s.rest.length < fuel) :
    collectFrom fuel s room held = behind held (s.collected room) := by
  -- Every read but the last one takes a byte, so that fuel beyond the length of the rest is enough.
  induction fuel generalizing s room held with
  | zero => exact absurd hfuel (Nat.not_lt_zero _)
  | succ fuel ih =>
      rw [collectFrom]
      split
      · next hroom => rw [hroom, collected_zero, behind_ok_nil]
      · next hroom =>
          rw [collected_step s (Nat.pos_of_ne_zero hroom)]
          cases hread : s.read room with
          | error reason => rfl
          | ok r =>
              obtain ⟨bytes, later⟩ := r
              show (if bytes.isEmpty then _ else _) = behind held (if bytes.isEmpty then _ else _)
              split
              · exact (behind_ok_nil held).symm
              · next hbytes =>
                  have hlength := length_of_read hread
                  have hpos : 0 < bytes.length := List.length_pos_iff.2 (mt List.isEmpty_iff.2 hbytes)
                  rw [ih (by omega), behind_behind]

theorem collect_eq_collected (s : Source) (room : Nat) : s.collect room = s.collected room := by
  rw [collect, collectFrom_eq_collected (Nat.lt_succ_self _), behind_nil]

end Source

/-! ## Streams that keep one waiting -/

namespace SlowSource

variable {s later : SlowSource} {room : Nat}

theorem source_of_notYet (h : s.ask room = .notYet later) : later.source = s.source := by
  unfold ask at h
  split at h
  · cases h
    rfl
  · split at h <;> cases h

theorem read_of_failed {reason : String} (h : s.ask room = .failed reason) :
    s.source.read room = .error reason := by
  unfold ask at h
  split at h
  · cases h
  · split at h
    · next hread =>
        cases h
        exact hread
    · cases h

theorem read_of_ready {bytes : List UInt8} (h : s.ask room = .ready bytes later) :
    s.source.read room = .ok (bytes, later.source) := by
  unfold ask at h
  split at h
  · cases h
  · split at h
    · cases h
    · next hread =>
        cases h
        exact hread

/-- Being put off changes nothing. -/
theorem collectFrom_eq_collected (s : SlowSource) (room : Nat) (held : List UInt8) :
    s.collectFrom room held = Source.behind held (s.source.collected room) := by
  fun_induction collectFrom s room held with
  | case1 s held => rw [Source.collected_zero, Source.behind_ok_nil]
  | case2 s room held hroom later hreply ih => rw [ih, source_of_notYet hreply]
  | case3 s room held hroom reason hreply =>
      rw [Source.collected_step _ (Nat.pos_of_ne_zero hroom), read_of_failed hreply]
      rfl
  | case4 s room held hroom bytes later hreply hbytes =>
      rw [Source.collected_step _ (Nat.pos_of_ne_zero hroom), read_of_ready hreply]
      simp only [hbytes, if_true, Source.behind_ok_nil]
  | case5 s room held hroom bytes later hreply hbytes ih =>
      rw [Source.collected_step _ (Nat.pos_of_ne_zero hroom), read_of_ready hreply, ih]
      simp only [if_neg hbytes, Source.behind_behind]

theorem collect_eq_collected (s : SlowSource) (room : Nat) :
    s.collect room = s.source.collected room := by
  rw [collect, collectFrom_eq_collected, Source.behind_nil]

end SlowSource

/-! ## Payloads -/

/-- How many bytes come of a stream: all, or those in front of the place where it fails. -/
def arriving (content : List UInt8) (failAt : Option Nat) : Nat :=
  failAt.elim content.length (min content.length)

/-- What comes of a stream that is read up to `limit`: it is too large, even if it would fail later; or
it fails; or it is whole, and `inMemory` says what becomes of it. -/
def delivered {α : Type} (limit : UInt64) (content : List UInt8) (failAt : Option Nat) (reason : String)
    (inMemory : List UInt8 → Except PayloadError α) : Except PayloadError α :=
  if limit.toNat < arriving content failAt then .error (.tooLarge limit)
  else if failAt.any (· ≤ content.length) then .error (.stream reason)
  else inMemory content

variable {content : List UInt8} {failAt : Option Nat} {reason : String} {limit : UInt64}

theorem arriving_le (content : List UInt8) (failAt : Option Nat) :
    arriving content failAt ≤ content.length := by
  cases failAt with
  | none => exact Nat.le_refl _
  | some f => exact Nat.min_le_left ..

/-- All bytes come of a stream that does not fail. -/
theorem arriving_of_whole (h : ¬ failAt.any (· ≤ content.length) = true) :
    arriving content failAt = content.length := by
  cases failAt with
  | none => rfl
  | some f =>
      refine Nat.min_eq_left (Nat.le_of_not_le ?_)
      intro hle
      exact h (decide_eq_true hle)

/-- One byte more than the limit is read if so many come. -/
theorem readLimit_le_iff {n : Nat} (h : limit.toNat = 2 ^ 64 - 1 → n < 2 ^ 64 - 1) :
    readLimit limit ≤ n ↔ limit.toNat < n := by
  have hlimit := limit.toNat_lt
  unfold readLimit
  omega

theorem lt_readLimit {n : Nat} (h : limit.toNat = 2 ^ 64 - 1 → n < 2 ^ 64 - 1)
    (hlarge : limit.toNat < n) : limit.toNat < readLimit limit := by
  have hlimit := limit.toNat_lt
  unfold readLimit
  omega

/-- The bytes collected of a stream from its beginning on, checked for their number. -/
theorem checkSize_collected (portion : Nat → Nat)
    (hheld : limit.toNat = 2 ^ 64 - 1 → arriving content failAt < 2 ^ 64 - 1) :
    checkSize limit (Source.collected { rest := content, portion, failAt, reason } (readLimit limit)) =
      delivered limit content failAt reason .ok := by
  have hreach : Source.reach { rest := content, portion, failAt, reason } = arriving content failAt := by
    cases failAt <;> rfl
  have hfails : Source.fails { rest := content, portion, failAt, reason } =
      failAt.any (· ≤ content.length) := by
    simp only [Source.fails, Nat.zero_add]
  rw [Source.collected, hreach, hfails, delivered]
  simp only [readLimit_le_iff hheld]
  split
  · next hlarge =>
      have hlength : (content.take (readLimit limit)).length = readLimit limit :=
        List.length_take_of_le (((readLimit_le_iff hheld).2 hlarge).trans (arriving_le content failAt))
      rw [checkSize, hlength, if_pos (lt_readLimit hheld hlarge)]
  · next hsmall =>
      split
      · rfl
      · next hwhole =>
          rw [arriving_of_whole hwhole] at hsmall
          rw [checkSize, if_neg hsmall]

theorem delivered_bind {α : Type} (inMemory : List UInt8 → Except PayloadError α) :
    (delivered limit content failAt reason .ok >>= inMemory) =
      delivered limit content failAt reason inMemory := by
  unfold delivered
  split
  · rfl
  split
  · rfl
  · rfl

/-- What is read from a stream depends on its bytes, the place where it fails and the limit.  Neither
the portions in which the bytes come nor whether one has to wait for them makes a difference.  `hheld` is void
but for the greatest limit; under that one fewer bytes come than it says, since no memory holds more. -/
theorem read_delivered (parseUrl : Url.Parser) (settings : ReaderSettings) (content : List UInt8)
    (failAt : Option Nat) (reason : String) (portion portion' delay : Nat → Nat)
    (hheld : settings.maxPayloadSize.toNat = 2 ^ 64 - 1 → arriving content failAt < 2 ^ 64 - 1) :
    let source : Source := { rest := content, portion, failAt, reason }
    let slow : SlowSource := { source := { rest := content, portion := portion', failAt, reason }, delay }
    let links := delivered settings.maxPayloadSize content failAt reason (readLinks parseUrl settings)
    let link := delivered settings.maxPayloadSize content failAt reason (readLink parseUrl settings)
    readLinksFrom parseUrl settings source = links ∧ awaitLinksFrom parseUrl settings slow = links ∧
      readLinkFrom parseUrl settings source = link ∧ awaitLinkFrom parseUrl settings slow = link := by
  intro source slow links link
  have hsource : source.payload settings.maxPayloadSize =
      delivered settings.maxPayloadSize content failAt reason .ok := by
    rw [Source.payload, Source.collect_eq_collected]
    exact checkSize_collected portion hheld
  have hslow : slow.payload settings.maxPayloadSize =
      delivered settings.maxPayloadSize content failAt reason .ok := by
    rw [SlowSource.payload, SlowSource.collect_eq_collected]
    exact checkSize_collected portion' hheld
  refine ⟨?_, ?_, ?_, ?_⟩
  · rw [readLinksFrom, hsource, delivered_bind]
  · rw [awaitLinksFrom, hslow, delivered_bind]
  · rw [readLinkFrom, hsource, delivered_bind]
  · rw [awaitLinkFrom, hslow, delivered_bind]

/-- Twelve bytes in portions of one and of five, under the greatest limit: read whole, although a
thirteenth byte would not have come. -/
theorem read_delivered_unlimited :
    let settings : ReaderSettings := { maxPayloadSize := 2 ^ 64 - 1 }
    let content := Text.Utf8.encode "\x7b\"value\":[]\x7d"
    let source : Source := { rest := content, portion := fun _ => 1, failAt := some 13, reason := "lost" }
    let slow : SlowSource :=
      { source := { rest := content, portion := fun _ => 5, failAt := some 13, reason := "lost" }
        delay := fun offset => offset % 3 }
    (settings.maxPayloadSize.toNat = 2 ^ 64 - 1 → arriving content (some 13) < 2 ^ 64 - 1) ∧
      readLinksFrom Url.parse settings source = readLinks Url.parse settings content ∧
      awaitLinksFrom Url.parse settings slow = readLinks Url.parse settings content ∧
      readLinkFrom Url.parse settings source = readLink Url.parse settings content ∧
      awaitLinkFrom Url.parse settings slow = readLink Url.parse settings content := by
  intro settings content source slow
  have hheld : settings.maxPayloadSize.toNat = 2 ^ 64 - 1 → arriving content (some 13) < 2 ^ 64 - 1 := by
    intro _
    decide +kernel
  have hwhole : ∀ {α : Type} (inMemory : List UInt8 → Except PayloadError α),
      delivered settings.maxPayloadSize content (some 13) "lost" inMemory = inMemory content := by
    intro α inMemory
    have hsmall : ¬ settings.maxPayloadSize.toNat < arriving content (some 13) := by decide +kernel
    have hends : ¬ (some 13).any (· ≤ content.length) = true := by decide +kernel
    rw [delivered, if_neg hsmall, if_neg hends]
  have h := read_delivered Url.parse settings content (some 13) "lost" (fun _ => 1) (fun _ => 5)
    (fun offset => offset % 3) hheld
  rw [hwhole, hwhole] at h
  exact ⟨hheld, h⟩

/-- A payload of as many bytes as the limit says is whole; one more is too large, and is not read far
enough to find out that the stream fails behind it. -/
example (inMemory : List UInt8 → Except PayloadError ReferenceLinks) :
    delivered 2 [1, 2] none "lost" inMemory = inMemory [1, 2] ∧
      delivered 2 [1, 2, 3] (some 3) "lost" inMemory = .error (.tooLarge 2) :=
  ⟨rfl, rfl⟩

end OData.Payload
