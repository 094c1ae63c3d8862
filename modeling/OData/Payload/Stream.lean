/-
# `OData.Payload.Stream` — payloads to and from streams

A stream moves bytes in portions of a size of its own choosing and may fail.  Neither the portions
nor whether one has to wait for them shows in what is read or written: a payload is collected
whole, up to a limit, before it is read, and written whole before any of it is sent.
-/
import OData.Payload.Read
import OData.Payload.Write
import OData.Text.Utf8

namespace OData.Payload

/-- A stream that bytes come from. -/
structure Source where
  /-- The bytes that are still to come. -/
  rest : List UInt8
  /-- How many bytes have come. -/
  offset : Nat := 0
  /-- How many bytes a read from this offset yields at most; at least one. -/
  portion : Nat → Nat
  /-- Reads from this offset on fail, and no byte behind it comes. -/
  failAt : Option Nat := none
  /-- Why they fail. -/
  reason : String := ""

/-- How many bytes are read where `limit` are allowed.  One byte more tells that there are too many; the
number has 64 bits, and behind the greatest limit there is none. -/
def readLimit (limit : UInt64) : Nat := min (limit.toNat + 1) (2 ^ 64 - 1)

/-- The bytes that were collected, unless they are too many or the stream failed. -/
def checkSize (limit : UInt64) : Except String (List UInt8) → Except PayloadError (List UInt8)
  | .error reason => .error (.stream reason)
  | .ok bytes => if limit.toNat < bytes.length then .error (.tooLarge limit) else .ok bytes

namespace Source

/-- How many bytes a read yields that wants at most `room`. -/
def available (s : Source) (room : Nat) : Nat :=
  let n := min room (max 1 (s.portion s.offset))
  match s.failAt with
  | some limit => min n (limit - s.offset)
  | none => n

/-- Reads at most `room` bytes; none when there are none left. -/
def read (s : Source) (room : Nat) : Except String (List UInt8 × Source) :=
  if s.failAt.any (· ≤ s.offset) then .error s.reason
  else
    let bytes := s.rest.take (s.available room)
    .ok (bytes, { s with rest := s.rest.drop bytes.length, offset := s.offset + bytes.length })

/-- Reads `room` bytes, or all if there are fewer, behind those in `held`.  Each read but the last takes a
byte, so that one more than the number of bytes suffices as `fuel`. -/
def collectFrom (fuel : Nat) (s : Source) (room : Nat) (held : List UInt8) :
    Except String (List UInt8) :=
  match fuel with
  | 0 => .ok held
  | fuel + 1 =>
    if room = 0 then .ok held
    else do
      let (bytes, s) ← s.read room
      if bytes.isEmpty then .ok held
      else collectFrom fuel s (room - bytes.length) (held ++ bytes)

/-- Reads `room` bytes, or all if there are fewer. -/
def collect (s : Source) (room : Nat) : Except String (List UInt8) :=
  collectFrom (s.rest.length + 1) s room []

/-- The whole payload, which must not be larger than `limit`. -/
def payload (s : Source) (limit : UInt64) : Except PayloadError (List UInt8) :=
  checkSize limit (s.collect (readLimit limit))

end Source

/-- Reads a collection of links from a stream. -/
def readLinksFrom (parseUrl : Url.Parser) (settings : ReaderSettings) (s : Source) :
    Except PayloadError ReferenceLinks := do
  readLinks parseUrl settings (← s.payload settings.maxPayloadSize)

/-- Reads a single link from a stream. -/
def readLinkFrom (parseUrl : Url.Parser) (settings : ReaderSettings) (s : Source) :
    Except PayloadError ReferenceLink := do
  readLink parseUrl settings (← s.payload settings.maxPayloadSize)

/-- A stream that bytes go to. -/
structure Sink where
  /-- The bytes that have gone. -/
  held : List UInt8 := []
  /-- How many bytes it can hold, if there is a limit. -/
  capacity : Option Nat := none
  /-- How many bytes a write takes at most when so many are held; at least one. -/
  portion : Nat → Nat
  /-- How often it was flushed. -/
  flushes : Nat := 0
  /-- Why flushing fails, if it does. -/
  flushFault : Option String := none
  /-- Why a write fails when there is no room. -/
  reason : String := ""

namespace Sink

/-- Room for more bytes. -/
def room (s : Sink) (wanted : Nat) : Nat :=
  match s.capacity with
  | some capacity => min wanted (capacity - s.held.length)
  | none => wanted

/-- Writes some of `bytes`, of which there is one at least; yields those that are left. -/
def write (s : Sink) (bytes : List UInt8) : Except String (List UInt8 × Sink) :=
  let n := s.room (min bytes.length (max 1 (s.portion s.held.length)))
  if n = 0 then .error s.reason
  else .ok (bytes.drop n, { s with held := s.held ++ bytes.take n })

/-- A write that does not fail takes a byte. -/
theorem length_of_write {s later : Sink} {bytes rest : List UInt8} (hbytes : ¬ bytes.isEmpty)
    (h : s.write bytes = .ok (rest, later)) : rest.length < bytes.length := by
  rw [write] at h
  split at h
  · cases h
  · next htaken =>
      cases h
      have hlength : 0 < bytes.length := List.length_pos_iff.2 (mt List.isEmpty_iff.2 hbytes)
      rw [List.length_drop]
      exact Nat.sub_lt hlength (Nat.pos_of_ne_zero htaken)

/-- Writes all of `bytes`, as far as there is room.  Each write takes a byte, so that the number of bytes
suffices as `fuel`. -/
def writeFrom (fuel : Nat) (s : Sink) (bytes : List UInt8) : Except String Unit × Sink :=
  match fuel with
  | 0 => (.ok (), s)
  | fuel + 1 =>
    if bytes.isEmpty then (.ok (), s)
    else match s.write bytes with
      | .error reason => (.error reason, s)
      | .ok (rest, s) => s.writeFrom fuel rest

def writeAll (s : Sink) (bytes : List UInt8) : Except String Unit × Sink :=
  s.writeFrom bytes.length bytes

/-- Sends on what is held. -/
def flush (s : Sink) : Except String Unit × Sink :=
  (match s.flushFault with
    | some reason => .error reason
    | none => .ok (), { s with flushes := s.flushes + 1 })

/-- Writes a payload, if there is one, and flushes. -/
def send (s : Sink) (payload : Except PayloadError String) : Except PayloadError Unit × Sink :=
  match payload with
  | .error e => (.error e, s)
  | .ok text =>
    match s.writeAll (Text.Utf8.encode text) with
    | (.error reason, s) => (.error (.stream reason), s)
    | (.ok (), s) =>
      let (result, s) := s.flush
      (result.mapError .stream, s)

end Sink

/-- Writes a collection of links to a stream. -/
def writeLinksTo (settings : WriterSettings) (s : Sink) (ls : ReferenceLinks) :
    Except PayloadError Unit × Sink :=
  s.send (writeLinks settings ls)

/-- Writes a single link to a stream. -/
def writeLinkTo (settings : WriterSettings) (s : Sink) (l : ReferenceLink) :
    Except PayloadError Unit × Sink :=
  s.send (writeLink settings l)

end OData.Payload
