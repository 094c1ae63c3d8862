/-
# `OData.Url.Parse` — reading URLs

`Url.parse` reads a URL that stands for itself.  Controls and spaces around it, and tabs and line
ends anywhere, do not count; only the path of a file is read with them.  The schemes of the web and
that of files have rules of their own: they need no slashes, a backslash is one, and their hosts
are domain names or addresses.  It is the parser that programs are run with; of the hosts of the
web it knows those in ASCII (`Host.ofDomain`).
-/
import OData.Url.Basic
import OData.Url.Path

namespace OData.Url

/-- The kinds of schemes. -/
inductive SchemeKind where
  /-- A scheme of the web, with the port that need not be named. -/
  | web (port : Nat)
  | file
  | other
deriving DecidableEq, Repr

namespace SchemeKind

def ofName : String → SchemeKind
  | "http" | "ws" => web 80
  | "https" | "wss" => web 443
  | "ftp" => web 21
  | "file" => file
  | _ => other

def isSpecial : SchemeKind → Bool
  | other => false
  | _ => true

def defaultPort? : SchemeKind → Option Nat
  | web port => some port
  | _ => none

end SchemeKind

/-- The characters of a text without the controls and spaces around them. -/
def trim (text : String) : List Char :=
  let isOuter (c : Char) : Bool := c.toNat ≤ 0x20
  ((text.toList.dropWhile isOuter).reverse.dropWhile isOuter).reverse

def isSchemeChar (c : Char) : Bool := c.isAlphanum || c == '+' || c == '-' || c == '.'

/-- The scheme, in small letters, and what follows its colon. -/
def splitScheme? (cs : List Char) : Option (String × List Char) :=
  match cs.head?, cs.dropWhile isSchemeChar with
  | some c, ':' :: rest =>
    if c.isAlpha then
      some (String.ofList ((cs.takeWhile isSchemeChar).map Char.toLower), rest)
    else none
  | _, _ => none

/-- The character ends the authority. -/
def endsAuthority (special : Bool) (c : Char) : Bool :=
  c == '/' || c == '?' || c == '#' || (special && c == '\\')

/-- User name and password, as they are written, and what follows them.  They reach up to the last `@` of
the authority. -/
def splitUser (special : Bool) (cs : List Char) : Except Fault (String × String × List Char) :=
  let authority := cs.takeWhile fun c => !endsAuthority special c
  let host := (authority.reverse.takeWhile (· != '@')).reverse
  let rest := host ++ cs.drop authority.length
  if host.length = authority.length then .ok ("", "", cs)
  else
    let user := authority.take (authority.length - host.length - 1)
    if user.isEmpty && (rest.head?.any (endsAuthority special)) then .error .emptyHost
    else
      let encode (cs : List Char) := String.ofList (percentEncode inUserSet cs)
      match Text.splitOnce ':' user with
      | some (name, password) => .ok (encode name, encode password, rest)
      | none => .ok (encode user, "", rest)

/-- The host, as it is written, and what follows it.  A colon in brackets is part of it. -/
def splitHost (special bracketed : Bool) : List Char → List Char × List Char
  | [] => ([], [])
  | c :: cs =>
    if endsAuthority special c || (c == ':' && !bracketed) then ([], c :: cs)
    else
      let bracketed := if c == '[' then true else if c == ']' then false else bracketed
      let (host, rest) := splitHost special bracketed cs
      (c :: host, rest)

/-- The number of a port, `n` that of the digits before. -/
def portFrom (n : Nat) : List Char → Except Fault (Nat × List Char)
  | [] => .ok (n, [])
  | c :: cs =>
    if c.isDigit then
      let n := 10 * n + (c.toNat - '0'.toNat)
      if n < 2 ^ 16 then portFrom n cs else .error .badPort
    else if endsAuthority true c then .ok (n, c :: cs)
    else .error .badPort

/-- The port, if one is named that is not the default one, and what follows it. -/
def splitPort (default : Option Nat) (cs : List Char) : Except Fault (Option Nat × List Char) :=
  match cs with
  | ':' :: cs => do
    let (port, rest) ← portFrom 0 cs
    let named := rest.length ≠ cs.length
    return (if named ∧ some port ≠ default then some port else none, rest)
  | cs => .ok (none, cs)

/-- The authority behind its slashes, and what follows it. -/
def splitAuthority (kind : SchemeKind) (cs : List Char) : Except Fault (Authority × List Char) := do
  let (user, password, rest) ← splitUser kind.isSpecial cs
  let (host, rest) := splitHost kind.isSpecial false rest
  if host.isEmpty && kind.isSpecial then throw .emptyHost
  let host ← if kind.isSpecial then Host.parseDomain host else Host.parseFree host
  if host = .name "" ∧ rest.head? = some ':' then throw .emptyHost
  let (port, rest) ← splitPort kind.defaultPort? rest
  if host = .name "" ∧ (!user.isEmpty || !password.isEmpty) then throw .emptyHost
  return (⟨user, password, host, port⟩, rest)

/-- The text in front of the query and the fragment, the query and the fragment. -/
def splitQuery (special : Bool) (cs : List Char) : List Char × Option String × Option String :=
  let isEnd (c : Char) : Bool := c == '?' || c == '#'
  let path := cs.takeWhile (!isEnd ·)
  let rest := cs.drop path.length
  let set := if special then inSpecialQuerySet else inQuerySet
  let query := match rest with
    | '?' :: rest =>
      some (String.ofList (percentEncode set (dropBreaks (rest.takeWhile (· != '#')))))
    | _ => none
  let fragment := match rest.dropWhile (· != '#') with
    | '#' :: rest => some (String.ofList (percentEncode inFragmentSet (dropBreaks rest)))
    | _ => none
  (path, query, fragment)

def ofSegments (segments : List Segment) : Path :=
  .segments (segments.map fun segment => String.ofList segment.chars)

/-- The path behind an authority. -/
def authorityPath (special : Bool) (cs : List Char) : Path :=
  match cs with
  | [] => if special then .segments [""] else .segments []
  | '/' :: cs => ofSegments (segments special cs)
  | '\\' :: rest => ofSegments (segments special (if special then rest else cs))
  | cs => ofSegments (segments special cs)

/-- The rest of a URL whose two slashes have been passed. -/
def parseAuthority (scheme : String) (kind : SchemeKind) (cs : List Char) : Except Fault Url := do
  let (authority, rest) ← splitAuthority kind cs
  let (path, query, fragment) := splitQuery kind.isSpecial rest
  return ⟨scheme, some authority, authorityPath kind.isSpecial path, query, fragment⟩

/-- The rest of a URL of another scheme. -/
def parseOther (scheme : String) (cs : List Char) : Except Fault Url :=
  match cs with
  | '/' :: '/' :: cs => parseAuthority scheme .other cs
  | cs =>
    let (path, query, fragment) := splitQuery false cs
    let path := match path with
      | '/' :: path => ofSegments (segments false path)
      | path => .rootless (String.ofList (percentEncode isControl path))
    .ok ⟨scheme, none, path, query, fragment⟩

def isSlash (c : Char) : Bool := c == '/' || c == '\\'

/-- What follows the slash that a text starts with.  Breaks in front of it do not count. -/
def dropSlash? (cs : List Char) : Option (List Char) :=
  match cs.dropWhile isBreak with
  | c :: rest => if isSlash c then some rest else none
  | [] => none

/-- The host of a file and the path behind it.  A drive letter is no host, nor is the own machine.  Without
a host the slash behind it counts as an empty segment. -/
def splitFileHost (cs : List Char) : Except Fault (Host × List Char) := do
  let written := cs.takeWhile fun c => !endsAuthority true c
  let rest := cs.drop written.length
  let host := dropBreaks written
  if isDriveLetter host then return (.name "", cs)
  if host.isEmpty then return (.name "", rest)
  match ← Host.parseDomain host with
  | .name "localhost" => return (.name "", rest)
  | host => return (host, (dropSlash? rest).getD rest)

/-- The segment names a drive. -/
def Segment.isDrive : Segment → Bool
  | drive _ => true
  | text _ => false

/-- The rest of a URL of a file.  A drive makes the host superfluous. -/
def parseFile (cs : List Char) : Except Fault Url := do
  let (host, rest) ←
    match dropSlash? cs with
    | none => pure (.name "", cs)
    | some rest =>
      match dropSlash? rest with
      | none => pure (.name "", rest)
      | some rest => splitFileHost rest
  let (path, query, fragment) := splitQuery true rest
  let segments := fileSegments path
  let host := if segments.head?.any Segment.isDrive then .name "" else host
  return ⟨"file", some ⟨"", "", host, none⟩, ofSegments (dropEmpty segments), query, fragment⟩

/-- The URL that a text says. -/
def parse (text : String) : Except Fault Url := do
  let cs := trim text
  let some (scheme, rest) := splitScheme? (dropBreaks cs) | throw .noScheme
  match SchemeKind.ofName scheme with
  | .web port => parseAuthority scheme (.web port) (rest.dropWhile isSlash)
  | .file => parseFile ((cs.dropWhile (· != ':')).drop 1)
  | .other => parseOther scheme rest

end OData.Url
