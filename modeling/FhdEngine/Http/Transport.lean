import FhdEngine.Application.Storage
import FhdEngine.Http.Headers
import FhdEngine.Library.Process
import Mathlib.Data.List.AList
import Mathlib.Data.List.Sort

/-!
# The HTTP transport

`crates/adapters/http/src/lib.rs`: what a source reference is bound to, how a request follows redirects,
and what a probe leaves behind for the fetches after it. URLs are those of the library the source uses
(`Urls`); everything the source decides about them is here.

A probe and a fetch are programs: each lock of the registry and each request is one call, between which
any other probe, fetch, binding or unbinding may happen.
-/

namespace Fhd

open Process (Prog System)

/-- What the URL library is asked. -/
structure Urls (Url Origin : Type) where
  parse : String → Option Url
  asStr : Url → String
  /-- A reference, resolved against a URL. -/
  join : Url → String → Option Url
  scheme : Url → String
  hostStr : Url → Option String
  username : Url → String
  password : Url → Option String
  path : Url → String
  query : Url → Option String
  fragment : Url → Option String
  origin : Url → Origin
  asciiSerialization : Origin → String

inductive BindingError
  | alreadyBound
  | invalidUrl
  | insecureHttp
  | invalidCredential
  | tooManyOrigins
deriving DecidableEq, Repr

/-- `HeaderValue::from_str`: visible characters and tabs. -/
def isHeaderValue (value : Bytes) : Bool := value.all fun b ↦ (32 ≤ b && b ≠ 127) || b = 9

/-- A credential that may be sent. -/
def validCredential (value : Bytes) : Bool :=
  !(value = [] || value.length > maxField || value.any (128 ≤ ·) ||
    value.any (fun b ↦ b < 32 || b = 127) || !isHeaderValue value)

/-- Where a source reference points and what may be sent with it. -/
structure SourceBinding (Url : Type) where
  url : Url
  authorization : Option Bytes
  cookie : Option Bytes
  allowHttp : Bool
  redirectOrigins : List String
  credentials_valid : authorization.all validCredential ∧ cookie.all validCredential
deriving DecidableEq

def maxUrl : ℕ := 16384

section Urls

variable {Url Origin : Type} (U : Urls Url Origin)

def parseUrl (raw : String) (allowHttp : Bool) : Except BindingError Url :=
  if raw.utf8ByteSize > maxUrl ∨ raw.toList.any isControl then .error .invalidUrl
  else
    match U.parse raw with
    | none => .error .invalidUrl
    | some url =>
      if ¬(U.scheme url = "http" ∨ U.scheme url = "https") ∨ (U.hostStr url).isNone ∨
          U.username url ≠ "" ∨ (U.password url).isSome ∨ (U.fragment url).isSome then .error .invalidUrl
      else if U.scheme url = "http" ∧ !allowHttp then .error .insecureHttp
      else .ok url

/-- The loop of `SourceBinding::new` over the redirect origins. -/
def parseOrigins : List String → Except BindingError (List String)
  | [] => .ok []
  | origin :: rest =>
    match parseUrl U origin true with
    | .error e => .error e
    | .ok parsed =>
      if U.path parsed ≠ "/" ∨ (U.query parsed).isSome then .error .invalidUrl
      else
        match parseOrigins rest with
        | .error e => .error e
        | .ok origins => .ok (U.asciiSerialization (U.origin parsed) :: origins)

def SourceBinding.new (url : String) (authorization cookie : Option Bytes) (allowHttp : Bool)
    (redirectOrigins : List String) : Except BindingError (SourceBinding Url) :=
  match parseUrl U url allowHttp with
  | .error e => .error e
  | .ok url =>
    if h : ¬(authorization.all validCredential ∧ cookie.all validCredential) then
      .error .invalidCredential
    else if redirectOrigins.length > 8 then .error .tooManyOrigins
    else
      match parseOrigins U redirectOrigins with
      | .error e => .error e
      | .ok origins =>
        .ok ⟨url, authorization, cookie, allowHttp, (origins.mergeSort (· ≤ ·)).dedup, not_not.1 h⟩

/-! ### Requests and responses -/

structure Request (Url : Type) where
  url : Url
  headers : HeaderMap

/-- A response as far as it is looked at, with the URL it came from. -/
structure Response (Url : Type) where
  status : ℕ
  headers : HeaderMap
  url : Url
deriving DecidableEq

/-- The representation a probe proved, so later ranges are bound to it. -/
structure Representation (Url : Type) where
  etag : Bytes
  total : ℕ
  url : Url

/-- What probes and fetches share. -/
structure Sources (Url : Type) where
  bindings : AList fun _ : SourceRef ↦ SourceBinding Url
  probed : AList fun _ : SourceRef ↦ Representation Url

namespace Sources

variable {Url : Type}

def empty : Sources Url := ⟨∅, ∅⟩

/-- A reference is bound once. -/
def bind (s : Sources Url) (source : SourceRef) (binding : SourceBinding Url) :
    Except BindingError Unit × Sources Url :=
  if source ∈ s.bindings then (.error .alreadyBound, s)
  else (.ok (), { s with bindings := s.bindings.insert source binding })

/-- Forgets a binding and what it probed. -/
def unbind (s : Sources Url) (source : SourceRef) : Sources Url :=
  ⟨s.bindings.erase source, s.probed.erase source⟩

end Sources

/-- What a probe or a fetch calls. -/
inductive HttpPort (Url : Type)
  | binding (source : SourceRef)
  | probed (source : SourceRef)
  | insertProbed (source : SourceRef) (representation : Representation Url)
  | removeProbed (source : SourceRef)
  /-- A request without redirects; its time limit and what went wrong are told apart by the client. -/
  | request (request : Request Url)

def HttpAnswer (Url : Type) : HttpPort Url → Type
  | .binding _ => Option (SourceBinding Url)
  | .probed _ => Option (Representation Url)
  | .insertProbed _ _ | .removeProbed _ => Unit
  | .request _ => Except TransportError (Response Url)

abbrev HttpM (Url : Type) := ExceptT TransportError (Prog (HttpPort Url) (HttpAnswer Url))

def httpCall (op : HttpPort Url) : HttpM Url (HttpAnswer Url op) := ExceptT.mk (.call op fun a ↦ .done (.ok a))

/-- The headers of one request of a chain. -/
def requestHeaders (binding : SourceBinding Url) (credentials : Bool) (range : Option (ℕ × ℕ))
    (ifRange : Option Bytes) : HeaderMap :=
  let credential (name : HeaderName) (value : Option Bytes) : HeaderMap :=
    if credentials then (value.map fun v ↦ (name, v)).toList else []
  let ranged :=
    match range with
    | none => []
    | some (start, stop) =>
      (HeaderName.range, ascii "bytes=" ++ decimal start ++ [45] ++ decimal (stop - 1)) ::
        (ifRange.map fun v ↦ (HeaderName.ifRange, v)).toList
  (.acceptEncoding, ascii "identity") :: credential .authorization binding.authorization ++
    credential .cookie binding.cookie ++ ranged

def isRedirect (status : ℕ) : Bool :=
  status = 301 || status = 302 || status = 303 || status = 307 || status = 308

/-- Where a redirect leads, if the binding allows it. -/
def redirectTo [DecidableEq Origin] (binding : SourceBinding Url) (url : Url) (headers : HeaderMap) :
    Except TransportError Url :=
  match headers.single .location with
  | none => .error (.fatal .unknown)
  | some location =>
    match fromUtf8 location with
    | none => .error (.fatal .unknown)
    | some location =>
      match U.join url location with
      | none => .error (.fatal .unknown)
      | some next =>
        match parseUrl U (U.asStr next) binding.allowHttp with
        | .error _ => .error (.fatal .policy)
        | .ok next =>
          if U.scheme url = "https" ∧ U.scheme next ≠ "https" then .error (.fatal .policy)
          else if U.origin next ≠ U.origin url ∧
              U.asciiSerialization (U.origin next) ∉ binding.redirectOrigins then .error (.fatal .policy)
          else .ok next

/-- The loop of `send`, with what is left of its hops. -/
def sendFrom [DecidableEq Origin] (binding : SourceBinding Url) (range : Option (ℕ × ℕ))
    (ifRange : Option Bytes) : ℕ → Url → Bool → HttpM Url (Response Url)
  | 0, _, _ => throw (.fatal .policy)
  | hops + 1, url, credentials => do
    if credentials ∧ ¬(binding.authorization.all isHeaderValue ∧ binding.cookie.all isHeaderValue) then
      throw (.fatal .policy)
    match ← httpCall (.request ⟨url, requestHeaders binding credentials range ifRange⟩) with
    | .error error => throw error
    | .ok response =>
      if !isRedirect response.status then return response
      else
        match redirectTo U binding url response.headers with
        | .error error => throw error
        | .ok next =>
          sendFrom binding range ifRange hops next (credentials && U.origin next = U.origin binding.url)

/-- Follows redirects by hand. Credentials go to the initial origin only, and once a hop leaves it they
are gone for good. -/
def send [DecidableEq Origin] (maxRedirects : ℕ) (binding : SourceBinding Url) (start : Url)
    (range : Option (ℕ × ℕ)) (ifRange : Option Bytes) : HttpM Url (Response Url) :=
  sendFrom U binding range ifRange (maxRedirects + 1) start (U.origin start = U.origin binding.url)

/-! ### Probe and fetch -/

/-- What a probe reports as the total. -/
def probedTotal (response : Response Url) : Except TransportError ℕ :=
  if response.status = 206 then
    match do
      let value ← response.headers.single .contentRange
      let rest ← value.dropPrefix? (ascii "bytes ")
      let (_, total) ← splitOnce 47 rest
      digits total
    with
    | some total => .ok total
    | none => .error (.fatal .unknown)
  else
    match (response.headers.single .contentLength).bind digits with
    | some total => .ok total
    | none => .error (.fatal .policy)

/-- What a probe reads in its answer: the total, and a strong validator if ranges are offered. -/
def readProbe (response : Response Url) : Except TransportError (ℕ × Option Bytes) :=
  if ¬(response.status = 200 ∨ response.status = 206) then
    .error (statusError response.status response.headers)
  else if !response.headers.representationIsPlain then .error (.fatal .policy)
  else
    match probedTotal response with
    | .error error => .error error
    | .ok total =>
      if total > i64Max then .error (.fatal .policy)
      else .ok (total, if response.status = 206 then response.headers.strongValidator else none)

/-- What a fetch demands of its answer. -/
def checkFetched (probed : Option (Representation Url)) (range : ByteRange) (response : Response Url) :
    Except TransportError (Response Url) :=
  let declared := (response.headers.single .contentLength).bind digits
  if ¬(response.status = 200 ∨ response.status = 206) then
    .error (statusError response.status response.headers)
  else if !response.headers.representationIsPlain then .error (.fatal .policy)
  else
    match probed with
    | some probed =>
      -- 200 answers an If-Range only when the representation changed
      if response.status ≠ 206 ∨ response.headers.strongValidator ≠ some probed.etag ∨
          response.headers.contentRange range ≠ some probed.total ∨ declared.any (· ≠ range.len) then
        .error .representationChanged
      else .ok response
    | none =>
      if response.status = 206 ∨ declared ≠ some range.len then .error .representationChanged
      else .ok response

variable (digest : Bytes → Digest)

def probe [DecidableEq Origin] (maxRedirects : ℕ) (source : SourceRef) : HttpM Url Probe := do
  match ← httpCall (.binding source) with
  | none => throw (.fatal .policy)
  | some (binding : SourceBinding Url) =>
    -- one byte proves range support and reports the total
    let response ← send U maxRedirects binding binding.url (some (0, 1)) none
    let (total, etag) ← MonadExcept.ofExcept (readProbe response)
    match etag with
    | some etag =>
      let _ ← httpCall (.insertProbed source ⟨etag, total, response.url⟩)
      return ⟨total, some (digest etag)⟩
    | none =>
      let _ ← httpCall (.removeProbed source : HttpPort Url)
      return ⟨total, none⟩

/-- The part of a fetch after it has looked up what was probed. -/
def fetchProbed [DecidableEq Origin] (maxRedirects : ℕ) (binding : SourceBinding Url) (range : ByteRange)
    (validator : Option Digest) (probed : Option (Representation Url)) : HttpM Url (Response Url) :=
  -- a newer probe must never serve bytes to a job bound to an older one
  if validator ≠ probed.map fun p ↦ digest p.etag then throw .representationChanged
  -- a resumed range without a validator cannot be proven to match
  else if probed.isNone ∧ range.start ≠ 0 then throw .representationChanged
  else do
    let response ← send U maxRedirects binding ((probed.map (·.url)).getD binding.url)
      (probed.map fun _ ↦ (range.start, range.stop)) (probed.map (·.etag))
    MonadExcept.ofExcept (checkFetched probed range response)

/-- A stream is its response: nothing has been read from it yet. -/
def fetch [DecidableEq Origin] (maxRedirects : ℕ) (source : SourceRef) (range : ByteRange)
    (validator : Option Digest) : HttpM Url (Response Url) := do
  match ← httpCall (.binding source) with
  | none => throw (.fatal .policy)
  | some (binding : SourceBinding Url) =>
    let probed ← httpCall (.probed source)
    fetchProbed U digest maxRedirects binding range validator probed

/-! ### The transport as it is shared -/

/-- A call of the transport. Whoever fetches holds what a probe reported. -/
inductive HttpCall
  | probe (source : SourceRef)
  | fetch (source : SourceRef) (range : ByteRange) (held : Probe)
deriving DecidableEq

inductive Rebinding (Url : Type)
  | bind (source : SourceRef) (binding : SourceBinding Url)
  | unbind (source : SourceRef)

def serveHttp (s : Sources Url) : (op : HttpPort Url) → Except TransportError (Response Url) →
    HttpAnswer Url op × Sources Url
  | .binding source, _ => (s.bindings.lookup source, s)
  | .probed source, _ => (s.probed.lookup source, s)
  | .insertProbed source representation, _ =>
    ((), { s with probed := s.probed.insert source representation })
  | .removeProbed source, _ => ((), { s with probed := s.probed.erase source })
  | .request _, answer => (answer, s)

abbrev HttpResult (Url : Type) := Except TransportError (Probe ⊕ Response Url)

/-- Any number of probes and fetches at once, while sources are bound and unbound. -/
def httpSystem [DecidableEq Origin] (maxRedirects : ℕ) : System (Sources Url) HttpCall (HttpPort Url)
    (HttpAnswer Url) (HttpResult Url) (Except TransportError (Response Url)) (Rebinding Url) where
  program
    | .probe source => (Sum.inl <$> probe U digest maxRedirects source).run
    | .fetch source range held => (Sum.inr <$> fetch U digest maxRedirects source range held.validator).run
  serve _ := serveHttp
  disturb s
    | .bind source binding => (s.bind source binding).2
    | .unbind source => s.unbind source

end Urls

/-- The URL library, at one URL. -/
def Sample.urls : Urls String String where
  parse raw := some raw
  asStr url := url
  join _ reference := some reference
  scheme _ := "https"
  hostStr _ := some "a"
  username _ := ""
  password _ := none
  path _ := "/f"
  query _ := none
  fragment _ := none
  origin _ := "https://a"
  asciiSerialization origin := origin

end Fhd
