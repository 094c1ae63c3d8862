/-
# `OData.Url.Path` — the segments of a path

A path is read segment by segment.  A segment of one dot is passed over and one of two dots takes
the segment before it away, but for a drive letter; at the end either leaves an empty segment, so
that the path still ends in a slash.

A path in a file system may start with a drive, which is written with a colon whichever mark it had.
Tabs and line ends do not count, with one exception: between such a drive and the text behind it
they take the place of a slash.
-/
import OData.Text.Split
import OData.Url.Percent

namespace OData.Url

/-- A dot, or the encoded form of one, and what follows it. -/
def dropDot? : List Char → Option (List Char)
  | '.' :: cs | '%' :: '2' :: 'e' :: cs | '%' :: '2' :: 'E' :: cs => some cs
  | _ => none

/-- The segment says: here. -/
def isSingleDot (segment : List Char) : Bool := dropDot? segment == some []

/-- The segment says: one up. -/
def isDoubleDot (segment : List Char) : Bool := (dropDot? segment >>= dropDot?) == some []

/-- A letter and a colon or a bar. -/
def isDriveLetter : List Char → Bool
  | [c, ':'] | [c, '|'] => c.isAlpha
  | _ => false

/-- The text is a drive letter, or one with a backslash behind it, which ends it. -/
def startsWithDrive (cs : List Char) : Bool := isDriveLetter (cs.takeWhile (· != '\\'))

/-- A character that does not count. -/
def isBreak (c : Char) : Bool := c == '\t' || c == '\n' || c == '\r'

/-- The characters of `cs` that count. -/
def dropBreaks (cs : List Char) : List Char := cs.filter (!isBreak ·)

/-- A segment of a path that is kept. -/
inductive Segment where
  /-- The drive that a path in a file system starts with. -/
  | drive (letter : Char)
  | text (chars : List Char)
deriving DecidableEq, Repr

/-- A segment as it is written. -/
def Segment.chars : Segment → List Char
  | drive letter => [letter, ':']
  | text chars => chars

/-- The segments in `done`, in reverse order, without the last one. -/
def dropSegment : List Segment → List Segment
  | [] => []
  | segment :: done => if startsWithDrive segment.chars then segment :: done else done

/-- The encoded form of a segment. -/
def encodeSegment (segment : List Char) : List Char := percentEncode inPathSet (dropBreaks segment)

/-- A drive with a colon and the text that a tab or a line end cuts off from it. -/
def cutDrive? (segment : List Char) : Option (List Char × List Char) :=
  match dropBreaks segment, (segment.dropWhile (· != ':'))[1]? with
  | c :: ':' :: d :: text, some next =>
    if c.isAlpha && isBreak next then some ([c, ':'], d :: text) else none
  | _, _ => none

/-- The segments in `done`, in reverse order, and one more behind them. -/
def addSegment (done : List Segment) (segment : List Char) : List Segment :=
  .text (encodeSegment segment) :: done

/-- Same as `addSegment` for a path in a file system. -/
def addFileSegment (done : List Segment) (segment : List Char) : List Segment :=
  if done.isEmpty then
    match cutDrive? segment, encodeSegment segment with
    | some (drive, text), _ => [.text (encodeSegment text), .text drive]
    | none, c :: cs => if isDriveLetter (c :: cs) then [.drive c] else [.text (c :: cs)]
    | none, [] => [.text []]
  else addSegment done segment

/-- The segments behind those in `done`, which are in reverse order, with dots resolved.  The others are
added with `add`. -/
def resolveDots (add : List Segment → List Char → List Segment) (done : List Segment) :
    List (List Char) → List Segment
  | [] => done.reverse
  | segment :: rest =>
    let atEnd := if rest.isEmpty then [.text []] else []
    if isDoubleDot (dropBreaks segment) then resolveDots add (atEnd ++ dropSegment done) rest
    else if isSingleDot (dropBreaks segment) then resolveDots add (atEnd ++ done) rest
    else resolveDots add (add done segment) rest

/-- The segments of a path behind its first slash, as they were written.  In the schemes of the web a
backslash is a slash. -/
def rawSegments (special : Bool) (cs : List Char) : List (List Char) :=
  Text.splitOn '/' (if special then cs.map fun c => if c = '\\' then '/' else c else cs)

/-- The segments of a path behind its first slash. -/
def segments (special : Bool) (cs : List Char) : List Segment :=
  resolveDots addSegment [] (rawSegments special cs)

/-- The segments of a path in a file system behind its first slash. -/
def fileSegments (cs : List Char) : List Segment := resolveDots addFileSegment [] (rawSegments true cs)

/-- Segments without the empty ones in front, one of which is left if there is no other. -/
def dropEmpty (segments : List Segment) : List Segment :=
  match segments.dropWhile (·.chars.isEmpty) with
  | [] => [.text []]
  | kept => kept

end OData.Url
