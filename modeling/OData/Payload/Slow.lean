/-
# `OData.Payload.Slow` — payloads from and to streams that keep one waiting

A stream that is asked for bytes, or offered some, may answer that it is not ready.  Whoever reads
from it or writes to it asks again later, with nothing lost in between.  The payload is collected and
checked as from any other stream, and sent as to any other.
-/
import OData.Payload.Stream

namespace OData.Payload

/-- A stream that bytes come from, some of them late. -/
structure SlowSource where
  source : Source
  /-- How often a read from this offset is put off. -/
  delay : Nat → Nat
  /-- How often the read that comes next was put off. -/
  waited : Nat := 0

/-- What a stream says when it is asked for bytes. -/
inductive Reply where
  | notYet (later : SlowSource)
  | failed (reason : String)
  | ready (bytes : List UInt8) (later : SlowSource)

namespace SlowSource

/-- Asks for at most `room` bytes. -/
def ask (s : SlowSource) (room : Nat) : Reply :=
  if s.waited < s.delay s.source.offset then .notYet { s with waited := s.waited + 1 }
  else match s.source.read room with
    | .error reason => .failed reason
    | .ok (bytes, source) => .ready bytes { s with source, waited := 0 }

/-- A read can be put off only so often. -/
theorem waits_of_notYet {s later : SlowSource} {room : Nat} (h : s.ask room = .notYet later) :
    later.delay later.source.offset - later.waited < s.delay s.source.offset - s.waited := by
  rw [ask] at h
  split at h
  · next hwaits =>
      cases h
      exact Nat.sub_succ_lt_self _ _ hwaits
  · split at h <;> cases h

/-- Reads `room` bytes, or all if there are fewer, behind those in `held`. -/
def collectFrom (s : SlowSource) (room : Nat) (held : List UInt8) : Except String (List UInt8) :=
  if room = 0 then .ok held
  else match _ : s.ask room with
    | .notYet later => collectFrom later room held
    | .failed reason => .error reason
    | .ready bytes later =>
      if bytes.isEmpty then .ok held else collectFrom later (room - bytes.length) (held ++ bytes)
termination_by (room, s.delay s.source.offset - s.waited)
decreasing_by
  · next hreply => exact .right _ (waits_of_notYet hreply)
  · next hroom _ hbytes =>
      have hlength : 0 < bytes.length := by
        cases bytes with
        | nil => exact absurd rfl hbytes
        | cons b bytes => exact Nat.succ_pos _
      exact .left _ _ (Nat.sub_lt (Nat.pos_of_ne_zero hroom) hlength)

/-- Reads `room` bytes, or all if there are fewer. -/
def collect (s : SlowSource) (room : Nat) : Except String (List UInt8) := s.collectFrom room []

/-- The whole payload, which must not be larger than `limit`. -/
def payload (s : SlowSource) (limit : UInt64) : Except PayloadError (List UInt8) :=
  checkSize limit (s.collect (readLimit limit))

end SlowSource

/-- Reads a collection of links from a stream that may keep one waiting. -/
def awaitLinksFrom (parseUrl : Url.Parser) (settings : ReaderSettings) (s : SlowSource) :
    Except PayloadError ReferenceLinks := do
  readLinks parseUrl settings (← s.payload settings.maxPayloadSize)

/-- Reads a single link from a stream that may keep one waiting. -/
def awaitLinkFrom (parseUrl : Url.Parser) (settings : ReaderSettings) (s : SlowSource) :
    Except PayloadError ReferenceLink := do
  readLink parseUrl settings (← s.payload settings.maxPayloadSize)

/-- A stream that bytes go to, some of them late. -/
structure SlowSink where
  sink : Sink
  /-- How often a write is put off when so many bytes are held. -/
  delay : Nat → Nat
  /-- How often flushing is put off. -/
  flushDelay : Nat := 0
  /-- How often what comes next was put off. -/
  waited : Nat := 0

/-- What a stream says when it is offered bytes. -/
inductive Uptake where
  | notYet (later : SlowSink)
  | failed (reason : String)
  | taken (rest : List UInt8) (later : SlowSink)

namespace SlowSink

/-- Offers some of `bytes`, of which there is one at least; yields those that are left. -/
def write (s : SlowSink) (bytes : List UInt8) : Uptake :=
  if s.waited < s.delay s.sink.held.length then .notYet { s with waited := s.waited + 1 }
  else match s.sink.write bytes with
    | .error reason => .failed reason
    | .ok (rest, sink) => .taken rest { s with sink, waited := 0 }

/-- A write can be put off only so often. -/
theorem waits_of_notYet {s later : SlowSink} {bytes : List UInt8} (h : s.write bytes = .notYet later) :
    later.delay later.sink.held.length - later.waited < s.delay s.sink.held.length - s.waited := by
  rw [write] at h
  split at h
  · next hwaits =>
      cases h
      exact Nat.sub_succ_lt_self _ _ hwaits
  · split at h <;> cases h

/-- A write that is not put off takes a byte. -/
theorem length_of_taken {s later : SlowSink} {bytes rest : List UInt8} (hbytes : ¬ bytes.isEmpty)
    (h : s.write bytes = .taken rest later) : rest.length < bytes.length := by
  rw [write] at h
  split at h
  · cases h
  · split at h
    · cases h
    · next hwrite =>
        cases h
        exact Sink.length_of_write hbytes hwrite

/-- Writes all of `bytes`, as far as there is room. -/
def writeAll (s : SlowSink) (bytes : List UInt8) : Except String Unit × SlowSink :=
  if bytes.isEmpty then (.ok (), s)
  else match _ : s.write bytes with
    | .notYet later => writeAll later bytes
    | .failed reason => (.error reason, s)
    | .taken rest later => writeAll later rest
termination_by (bytes.length, s.delay s.sink.held.length - s.waited)
decreasing_by
  · next hreply => exact .right _ (waits_of_notYet hreply)
  · next hbytes hreply => exact .left _ _ (length_of_taken hbytes hreply)

/-- Sends on what is held.  To be put off is not to be flushed. -/
def flush (s : SlowSink) : Except String Unit × SlowSink :=
  if s.waited < s.flushDelay then flush { s with waited := s.waited + 1 }
  else
    let (result, sink) := s.sink.flush
    (result, { s with sink, waited := 0 })
termination_by s.flushDelay - s.waited

/-- Writes a payload, if there is one, and flushes. -/
def send (s : SlowSink) (payload : Except PayloadError String) : Except PayloadError Unit × SlowSink :=
  match payload with
  | .error e => (.error e, s)
  | .ok text =>
    match s.writeAll (Text.Utf8.encode text) with
    | (.error reason, s) => (.error (.stream reason), s)
    | (.ok (), s) =>
      let (result, s) := s.flush
      (result.mapError .stream, s)

end SlowSink

/-- Writes a collection of links to a stream that may keep one waiting. -/
def awaitLinksTo (settings : WriterSettings) (s : SlowSink) (ls : ReferenceLinks) :
    Except PayloadError Unit × SlowSink :=
  s.send (writeLinks settings ls)

/-- Writes a single link to a stream that may keep one waiting. -/
def awaitLinkTo (settings : WriterSettings) (s : SlowSink) (l : ReferenceLink) :
    Except PayloadError Unit × SlowSink :=
  s.send (writeLink settings l)

end OData.Payload
