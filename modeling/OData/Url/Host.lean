/-
# `OData.Url.Host` — hosts

The schemes of the web name hosts by domain names or addresses, other schemes as they like.  Of
domain names only those in ASCII are dealt with: the letters are made small, and characters that
could end a host are refused.  A label that stands for other text has to stand for some.  Other
scripts need tables of what their characters are mapped to, which are left out: a name in one of
them is refused, and of a label it is not asked whether its text is mapped to itself.  Nothing that
is said of payloads depends on this, since their readers take any parser of URLs (`Url.Parser`).
-/
import OData.Text.Combining
import OData.Text.Unprintable
import OData.Url.Address
import OData.Url.Percent
import OData.Url.Punycode

namespace OData.Url

/-- Why a text is no URL. -/
inductive Fault where
  | noScheme
  | emptyHost
  | badPort
  | badIpv4
  | badIpv6
  | badDomain
  | badHostCharacter
  | tooLong
deriving DecidableEq, Repr

def Fault.message : Fault → String
  | noScheme => "relative URL without a base"
  | emptyHost => "empty host"
  | badPort => "invalid port number"
  | badIpv4 => "invalid IPv4 address"
  | badIpv6 => "invalid IPv6 address"
  | badDomain => "invalid international domain name"
  | badHostCharacter => "invalid domain character"
  | tooLong => "URLs more than 4 GB are not supported"

/-- A host. -/
inductive Host where
  /-- A domain name, or a host of a scheme outside the web; it may be empty. -/
  | name (text : String)
  | ipv4 (address : UInt32)
  | ipv6 (pieces : List Nat)
deriving DecidableEq, Repr

namespace Host

def text : Host → String
  | name text => text
  | ipv4 address => ipv4Text address
  | ipv6 pieces => "[" ++ ipv6Text pieces ++ "]"

/-- Marks that end a host or would be read as part of something else. -/
def forbiddenMarks : List Char := "#/:<>?@[\\]^|".toList

/-- What no host may hold. -/
def isForbidden (c : Char) : Bool :=
  c == '\x00' || c == '\t' || c == '\n' || c == '\r' || c == ' ' || forbiddenMarks.contains c

/-- What no domain name may hold. -/
def isForbiddenInDomain (c : Char) : Bool :=
  isControl c || c == ' ' || c == '%' || forbiddenMarks.contains c

/-- A host in brackets, the opening one of which has been taken off. -/
def parseBracketed (cs : List Char) : Except Fault Host :=
  match Text.dropEnding? [']'] cs >>= parseIpv6? with
  | some pieces => .ok (ipv6 pieces)
  | none => .error .badIpv6

/-- A text outside ASCII that a label may stand for: one can see it, and it does not attach to what is in
front of it. -/
def isLabelText (text : List Char) : Bool :=
  text.any (0x80 ≤ ·.toNat) && !text.any Text.isUnprintable && !text.head?.any Text.isCombining

/-- A label in small letters stands for itself or, behind a mark, for a text outside ASCII. -/
def isLabel : List Char → Bool
  | 'x' :: 'n' :: '-' :: '-' :: code => (Punycode.decode? code).any isLabelText
  | _ => true

/-- A domain name in ASCII, or the address that it spells.  One in another script is refused. -/
def ofDomain (domain : List Char) : Except Fault Host :=
  if domain.any fun c => 0x80 ≤ c.toNat || isForbiddenInDomain c then .error .badDomain
  else if !(Text.splitOn '.' domain).all isLabel then .error .badDomain
  else if domain.isEmpty then .error .emptyHost
  else if endsInNumber domain then
    match parseIpv4? domain with
    | some address => .ok (ipv4 address)
    | none => .error .badIpv4
  else .ok (name (String.ofList domain))

/-- A host of one of the schemes of the web. -/
def parseDomain (cs : List Char) : Except Fault Host :=
  match cs with
  | '[' :: cs => parseBracketed cs
  | cs =>
    match Text.Utf8.decode (percentDecode (Text.Utf8.encode (String.ofList cs))) with
    | .text domain => ofDomain (domain.map Char.toLower)
    | .faulty _ => .error .badDomain

/-- A host of another scheme. -/
def parseFree (cs : List Char) : Except Fault Host :=
  match cs with
  | '[' :: cs => parseBracketed cs
  | cs =>
    if cs.any isForbidden then .error .badHostCharacter
    else .ok (name (String.ofList (percentEncode isControl cs)))

end Host

end OData.Url
