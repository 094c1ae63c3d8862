/-
# `OData.Url.Basic` — URLs and their text

A URL is kept in its parts, each of them encoded as it is written, so that the text is only a
matter of putting them together.  Which texts are URLs is not for payloads to say: whoever reads
URLs is given a parser for them.
-/
import OData.Url.Host

namespace OData

namespace Url

/-- What stands behind two slashes. -/
structure Authority where
  /-- The user name; empty if there is none. -/
  user : String
  /-- The password; empty if there is none. -/
  password : String
  host : Host
  /-- The port, if it is not that of the scheme. -/
  port : Option Nat
deriving DecidableEq, Repr

/-- A path. -/
inductive Path where
  /-- Text that has no structure: what follows the colon of a URL that has no slash there. -/
  | rootless (text : String)
  /-- Segments with a slash in front of each. -/
  | segments (parts : List String)
deriving DecidableEq, Repr

end Url

/-- A URL. -/
structure Url where
  scheme : String
  authority : Option Url.Authority
  path : Url.Path
  query : Option String
  fragment : Option String
deriving DecidableEq, Repr

namespace Url

/-- A parser of URLs.  All that reads a URL takes one for a parameter and asks nothing of it. -/
abbrev Parser := String → Except Fault Url

/-- An authority as it is written, its slashes included. -/
def Authority.text (a : Authority) : String :=
  let password := if a.password.isEmpty then "" else ":" ++ a.password
  let user := a.user ++ password
  let port := match a.port with
    | some port => ":" ++ toString port
    | none => ""
  "//" ++ (if user.isEmpty then "" else user ++ "@") ++ a.host.text ++ port

def Path.text : Path → String
  | rootless text => text
  | segments parts => String.join (parts.map ("/" ++ ·))

/-- A path without an authority must not begin as one does; a dot that says nothing is put in front. -/
def pathGuard (authority : Option Authority) (path : Path) : String :=
  match authority, path with
  | none, .segments ("" :: _ :: _) => "/."
  | _, _ => ""

/-- The text of a URL. -/
def text (u : Url) : String :=
  let authority := match u.authority with
    | some a => a.text
    | none => ""
  let query := match u.query with
    | some query => "?" ++ query
    | none => ""
  let fragment := match u.fragment with
    | some fragment => "#" ++ fragment
    | none => ""
  u.scheme ++ ":" ++ authority ++ pathGuard u.authority u.path ++ u.path.text ++ query ++ fragment

end Url

end OData
