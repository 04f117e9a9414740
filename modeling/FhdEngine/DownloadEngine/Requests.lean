import FhdEngine.DownloadEngine.Responses
import FhdEngine.Http.Stream
import FhdEngine.Library.Fallible
import FhdEngine.Library.Routine
import Mathlib.Data.List.Chain

/-!
# Requests of the engine

`request` of `crates/download-engine/src/lib.rs` and the policy of `request_policy.rs` that it follows: redirects are
followed by hand, at most five of them, and each is checked before anything is sent there.

Every request of one call is kept (`Sent`). Whatever the servers answer, the requests of a call are a chain of hops that
the policy allows (`Chased`), so they are confined (`request_confined`). Unlike the adapter of
`FhdEngine.Http.Transport`, this loop decides on credentials anew at every hop: they go to the initial origin, also after
the chain has left it and come back.
-/

namespace Fhd.DownloadEngine

open Process (Does Ensures Environment Reaches Returns Routine)
open ResumePolicy (Field)

/-- The version of a response. -/
inductive Version
  | http10
  | http11
  | http2
  | other
deriving DecidableEq, Repr

/-- A response with its version, and what the connection brings after it. -/
structure Answered (Url : Type) where
  response : Response Url
  version : Version
  body : Body
deriving DecidableEq

/-- What a request came to that could be cancelled while it was waited for. -/
inductive Exchange (Url : Type)
  | cancelled
  /-- It failed, or took longer than thirty seconds. -/
  | failed
  | answered (answered : Answered Url)
deriving DecidableEq

inductive RequestPort (Url : Type)
  | send (request : Request Url)

def RequestAnswer (Url : Type) : RequestPort Url → Type
  | .send _ => Exchange Url

abbrev RequestM (Url : Type) := Routine Error Unit (RequestPort Url) (RequestAnswer Url)

def maxRedirects : ℕ := 5

section Requests

variable {Url UrlOrigin : Type} [DecidableEq UrlOrigin] (U : UrlLibrary Url UrlOrigin)

namespace RequestPolicy

variable (policy : RequestPolicy)

def authorizeRedirect (previous next : Url) : Except Error Unit :=
  if U.scheme previous = "https" ∧ U.scheme next ≠ "https" then .error .insecureHttp
  else if U.origin previous ≠ U.origin next ∧
      U.asciiSerialization (U.origin next) ∉ policy.redirectOrigins then .error .redirectOriginChange
  else .ok ()

/-- One credential, if there is one. -/
def credential (name : HeaderName) : Option String → Except Error HeaderMap
  | none => .ok []
  | some value => if isHeaderValue (utf8 value) then .ok [(name, utf8 value)] else .error .invalidOptions

/-- `apply`: credentials go to the initial origin only. -/
def apply (target initial : Url) : Except Error HeaderMap := do
  if U.origin target = U.origin initial then
    let authorization ← credential .authorization policy.authorization
    let cookie ← credential .cookie policy.cookie
    return authorization ++ cookie
  else return []

end RequestPolicy

/-- The headers of a range, of the entity tag it depends on. -/
def rangeHeaders : Option (ℕ × ℕ × String) → HeaderMap
  | none => []
  | some (start, total, etag) =>
    [(.range, ascii "bytes=" ++ decimal start ++ [45] ++ decimal (total - 1)), (.ifRange, utf8 etag)]

/-- What is asked for in every hop of a call. -/
structure Asking (Url : Type) where
  policy : RequestPolicy
  allowHttp : Bool
  initial : Url
  range : Option (ℕ × ℕ × String)

namespace Asking

variable (a : Asking Url)

def headers (url : Url) : Except Error HeaderMap := do
  let credentials ← a.policy.apply U url a.initial
  return (.acceptEncoding, ascii "identity") :: credentials ++ rangeHeaders a.range

/-- Where a redirect leads, if the policy allows it. -/
def redirect (url : Url) (headers : HeaderMap) : Except Error Url :=
  match field headers .location with
  | .single location =>
    if location.length > maxUrl then .error .invalidHeaders
    else
      match fromUtf8 location with
      | none => .error .invalidHeaders
      | some location =>
        match U.join url location with
        | none => .error .invalidUrl
        | some next => do
          let next ← parseUrl U (U.asStr next) a.allowHttp
          a.policy.authorizeRedirect U url next
          return next
  | _ => .error .invalidHeaders

/-- One hop. -/
def hop (url : Url) : RequestM Url (Answered Url) := do
  let headers ← MonadExcept.ofExcept (a.headers U url)
  let exchange : Exchange Url ← Routine.ask (RequestPort.send ⟨url, headers⟩)
  match exchange with
  | .cancelled => throw .cancelled
  | .failed => throw .network
  | .answered answered => return answered

/-- The loop of `request`, with the redirects that are left. -/
def requestFrom : ℕ → Url → RequestM Url (Answered Url)
  | 0, url => do
    let answered ← a.hop U url
    if isRedirect answered.response.status then throw .redirectLimit else return answered
  | left + 1, url => do
    let answered ← a.hop U url
    if isRedirect answered.response.status then
      let next ← MonadExcept.ofExcept (a.redirect U url answered.response.headers)
      requestFrom left next
    else return answered

def request : RequestM Url (Answered Url) := a.requestFrom U maxRedirects a.initial

end Asking

/-! ### What is answered -/

/-- Any network with responses like these. -/
def answering (P : Answered Url → Prop) : Environment Unit (RequestPort Url) (RequestAnswer Url) := fun _ op exchange _ ↦
  match op, exchange with
  | .send _, .answered answered => P answered
  | .send _, _ => True

/-- **What a call returns was answered.** -/
theorem request_answers {P : Answered Url → Prop} (a : Asking Url) :
    Does (answering P) (fun _ ↦ True) () () (a.request U) (fun answered _ _ ↦ P answered) fun _ _ _ ↦ True := by
  have hhop : ∀ url, Does (answering P) (fun _ ↦ True) () () (a.hop U url) (fun answered _ _ ↦ P answered)
      fun _ _ _ ↦ True := by
    intro url
    refine Does.ofExcept (fun _ _ ↦ trivial) fun headers _ ↦ Does.ask fun exchange _ hanswered ↦ ⟨trivial, ?_⟩
    cases exchange with
    | cancelled => exact Does.throw trivial
    | failed => exact Does.throw trivial
    | answered answered => exact Does.pure hanswered
  have hloop : ∀ left url, Does (answering P) (fun _ ↦ True) () () (a.requestFrom U left url)
      (fun answered _ _ ↦ P answered) fun _ _ _ ↦ True := by
    intro left
    induction left with
    | zero =>
      intro url
      refine Does.bind (hhop url) fun answered _ _ hP ↦ ?_
      exact Does.ite (fun _ ↦ Does.throw trivial) fun _ ↦ Does.pure hP
    | succ left ih =>
      intro url
      refine Does.bind (hhop url) fun answered _ _ hP ↦ ?_
      exact Does.ite (fun _ ↦ Does.ofExcept (fun _ _ ↦ trivial) fun next _ ↦ ih next) fun _ ↦ Does.pure hP
  exact hloop _ _

/-! ### What is sent -/

/-- The network, which keeps what was sent, newest first. A client that follows no redirects has its response from
where it asked. -/
inductive Sends : Environment (List (Request Url)) (RequestPort Url) (RequestAnswer Url)
  | send {sent : List (Request Url)} {request : Request Url} (exchange : Exchange Url)
      (hurl : ∀ answered, exchange = .answered answered → answered.response.url = request.url) :
      Sends sent (.send request) exchange (request :: sent)

/-- A URL the engine asks for. -/
structure Acceptable (allowHttp : Bool) (url : Url) : Prop where
  scheme : U.scheme url = "https" ∨ U.scheme url = "http" ∧ allowHttp = true
  host : (U.hostStr url).isSome
  username : U.username url = ""
  password : U.password url = none
  fragment : U.fragment url = none

variable (a : Asking Url)

/-- A redirect the policy allows. -/
structure Leads (url next : Url) : Prop where
  acceptable : Acceptable U a.allowHttp next
  secure : U.scheme url = "https" → U.scheme next = "https"
  listed : U.origin next = U.origin url ∨ U.asciiSerialization (U.origin next) ∈ a.policy.redirectOrigins

/-- A request to this URL. -/
def Asks (url : Url) (request : Request Url) : Prop := request.url = url ∧ a.headers U url = .ok request.headers

/-- **A chain of redirects**, newest first. -/
inductive Chased : List (Request Url) → Prop
  | first {request : Request Url} (hasks : Asks U a a.initial request) : Chased [request]
  | hop {last request : Request Url} {sent : List (Request Url)} {next : Url} (h : Chased (last :: sent))
      (hleads : Leads U a last.url next) (hasks : Asks U a next request) : Chased (request :: last :: sent)

variable {U a} {url next : Url} {sent : List (Request Url)} {raw : String} {allowHttp : Bool}

theorem acceptable_of_parseUrl (h : parseUrl U raw allowHttp = .ok url) : Acceptable U allowHttp url := by
  unfold parseUrl at h
  split at h
  next => cases h
  next =>
    split at h
    next => cases h
    next =>
      split at h
      next => cases h
      next hparts =>
        split at h
        next => cases h
        next hsecure =>
          cases h
          push Not at hparts
          obtain ⟨hscheme, hhost, husername, hpassword, hfragment⟩ := hparts
          refine ⟨?_, Option.isSome_iff_ne_none.2 (by simpa using hhost), husername, by simpa using hpassword,
            by simpa using hfragment⟩
          rcases hscheme with hplain | hsecret
          · refine Or.inr ⟨hplain, ?_⟩
            simpa [hplain] using hsecure
          · exact Or.inl hsecret

theorem authorizeRedirect_eq_ok {policy : RequestPolicy} : policy.authorizeRedirect U url next = .ok () ↔
    (U.scheme url = "https" → U.scheme next = "https") ∧
      (U.origin next = U.origin url ∨ U.asciiSerialization (U.origin next) ∈ policy.redirectOrigins) := by
  unfold RequestPolicy.authorizeRedirect
  split
  next h => exact iff_of_false (by rintro ⟨⟩) fun hsecure ↦ h.2 (hsecure.1 h.1)
  next h =>
    split
    next hlisted => exact iff_of_false (by rintro ⟨⟩) fun hall ↦ hall.2.elim (fun h ↦ hlisted.1 h.symm) hlisted.2
    next hlisted =>
      refine iff_of_true rfl ⟨fun hsecure ↦ not_not.1 fun hne ↦ h ⟨hsecure, hne⟩, ?_⟩
      by_cases hsame : U.origin next = U.origin url
      · exact Or.inl hsame
      · exact Or.inr (not_not.1 fun hnot ↦ hlisted ⟨fun heq ↦ hsame heq.symm, hnot⟩)

theorem leads_of_redirect {headers : HeaderMap} (h : a.redirect U url headers = .ok next) : Leads U a url next := by
  unfold Asking.redirect at h
  split at h
  next location _ =>
    split at h
    next => cases h
    next =>
      split at h
      next => cases h
      next =>
        split at h
        next => cases h
        next =>
          obtain ⟨parsed, hparsed, h⟩ := Fallible.bind_eq_ok.1 h
          obtain ⟨⟨⟩, hauthorized, h⟩ := Fallible.bind_eq_ok.1 h
          cases h
          obtain ⟨hsecure, hlisted⟩ := authorizeRedirect_eq_ok.1 hauthorized
          exact ⟨acceptable_of_parseUrl hparsed, hsecure, hlisted⟩
  next => cases h

namespace Chased

theorem ne_nil (h : Chased U a sent) : sent ≠ [] := by
  cases h with
  | first => exact List.cons_ne_nil _ _
  | hop => exact List.cons_ne_nil _ _

/-- The headers of every hop are the ones for its URL. -/
theorem headers (h : Chased U a sent) : ∀ request ∈ sent, a.headers U request.url = .ok request.headers := by
  induction h with
  | first hasks => exact List.forall_mem_singleton.2 (hasks.1 ▸ hasks.2)
  | hop h hleads hasks ih => exact List.forall_mem_cons.2 ⟨hasks.1 ▸ hasks.2, ih⟩

theorem acceptable (h : Chased U a sent) (hinitial : Acceptable U a.allowHttp a.initial) :
    ∀ request ∈ sent, Acceptable U a.allowHttp request.url := by
  induction h with
  | first hasks => exact List.forall_mem_singleton.2 (hasks.1.symm ▸ hinitial)
  | hop h hleads hasks ih => exact List.forall_mem_cons.2 ⟨hasks.1.symm ▸ hleads.acceptable, ih⟩

/-- Once the scheme is secure it stays so. -/
theorem secure (h : Chased U a sent) :
    sent.Pairwise fun later earlier ↦ U.scheme earlier.url = "https" → U.scheme later.url = "https" := by
  induction h with
  | first => exact List.pairwise_singleton _ _
  | hop h hleads hasks ih =>
    refine .cons (fun earlier hearlier hsecure ↦ hasks.1.symm ▸ hleads.secure ?_) ih
    rcases List.mem_cons.1 hearlier with rfl | hearlier
    · exact hsecure
    · exact List.rel_of_pairwise_cons ih hearlier hsecure

theorem listed (h : Chased U a sent) : sent.IsChain fun later earlier ↦
    U.origin later.url ≠ U.origin earlier.url → U.asciiSerialization (U.origin later.url) ∈ a.policy.redirectOrigins := by
  induction h with
  | first => exact .singleton _
  | hop h hleads hasks ih => exact .cons_cons (hasks.1.symm ▸ hleads.listed.resolve_left) ih

theorem getLast (h : Chased U a sent) : ∀ request ∈ sent.getLast?, request.url = a.initial := by
  induction h with
  | first hasks =>
    intro request hrequest
    cases hrequest
    exact hasks.1
  | hop h hleads hasks ih =>
    intro request hrequest
    rw [List.getLast?_cons_cons] at hrequest
    exact ih request hrequest

end Chased

/-! ### The headers of a hop -/

theorem credential_eq_ok {name : HeaderName} {value : Option String} {headers : HeaderMap}
    (h : RequestPolicy.credential name value = .ok headers) : headers = (value.map fun v ↦ (name, utf8 v)).toList := by
  cases value with
  | none =>
    cases h
    rfl
  | some v =>
    simp only [RequestPolicy.credential] at h
    split at h
    next =>
      cases h
      rfl
    next => cases h

/-- The credentials of a policy. -/
def RequestPolicy.credentials (policy : RequestPolicy) : HeaderMap :=
  (policy.authorization.map fun v ↦ (HeaderName.authorization, utf8 v)).toList ++
    (policy.cookie.map fun v ↦ (HeaderName.cookie, utf8 v)).toList

theorem headers_eq_ok {headers : HeaderMap} (h : a.headers U url = .ok headers) :
    headers = (.acceptEncoding, ascii "identity") ::
      (if U.origin url = U.origin a.initial then a.policy.credentials else []) ++ rangeHeaders a.range := by
  obtain ⟨credentials, happly, h⟩ := Fallible.bind_eq_ok.1 h
  cases h
  have hcredentials : credentials = if U.origin url = U.origin a.initial then a.policy.credentials else [] := by
    unfold RequestPolicy.apply at happly
    split at happly
    next hhome =>
      obtain ⟨authorization, hauthorization, happly⟩ := Fallible.bind_eq_ok.1 happly
      obtain ⟨cookie, hcookie, happly⟩ := Fallible.bind_eq_ok.1 happly
      cases happly
      rw [if_pos hhome, credential_eq_ok hauthorization, credential_eq_ok hcookie]
      rfl
    next haway =>
      cases happly
      rw [if_neg haway]
  rw [hcredentials]

/-- **What one call may have sent**, newest first, as far as it has come. -/
structure Confines (U : UrlLibrary Url UrlOrigin) (a : Asking Url) (sent : List (Request Url)) : Prop where
  few : sent.length ≤ maxRedirects + 1
  acceptable : ∀ request ∈ sent, Acceptable U a.allowHttp request.url
  secure : sent.Pairwise fun later earlier ↦ U.scheme earlier.url = "https" → U.scheme later.url = "https"
  listed : sent.IsChain fun later earlier ↦ U.origin later.url ≠ U.origin earlier.url →
    U.asciiSerialization (U.origin later.url) ∈ a.policy.redirectOrigins
  /-- Every hop asks for the same range of the same entity, and carries the credentials exactly if it goes to the
  initial origin. -/
  headers : ∀ request ∈ sent, request.headers = (.acceptEncoding, ascii "identity") ::
    (if U.origin request.url = U.origin a.initial then a.policy.credentials else []) ++ rangeHeaders a.range

/-- What was sent up to now, and what may still be sent. -/
def Sent (U : UrlLibrary Url UrlOrigin) (a : Asking Url) (sent : List (Request Url)) : Prop :=
  sent = [] ∨ Chased U a sent ∧ sent.length ≤ maxRedirects + 1

/-- Where the loop stands before it asks for this URL. -/
def Stands (U : UrlLibrary Url UrlOrigin) (a : Asking Url) (left : ℕ) (url : Url) : List (Request Url) → Prop
  | [] => url = a.initial ∧ left ≤ maxRedirects
  | last :: sent => Chased U a (last :: sent) ∧ Leads U a last.url url ∧ sent.length + 1 + left ≤ maxRedirects

/-- **One more request** of a chain. -/
theorem Stands.ask {left : ℕ} {headers : HeaderMap} (h : Stands U a left url sent)
    (hheaders : a.headers U url = .ok headers) :
    Chased U a (⟨url, headers⟩ :: sent) ∧ sent.length + 1 + left ≤ maxRedirects + 1 := by
  cases sent with
  | nil =>
    obtain ⟨rfl, hleft⟩ := h
    refine ⟨.first ⟨rfl, hheaders⟩, ?_⟩
    rw [List.length_nil]
    omega
  | cons last sent =>
    obtain ⟨hchased, hleads, hleft⟩ := h
    refine ⟨.hop hchased hleads ⟨rfl, hheaders⟩, ?_⟩
    rw [List.length_cons]
    omega

/-- **One hop** is one more request of the chain. -/
theorem hop_does {left : ℕ} (h : Stands U a left url sent) :
    Does Sends (Sent U a) () sent (a.hop U url)
      (fun answered _ sent' ↦ Chased U a sent' ∧ sent'.length + left ≤ maxRedirects + 1 ∧
        ∃ last earlier, sent' = last :: earlier ∧ last.url = url ∧ answered.response.url = last.url)
      fun _ _ _ ↦ True := by
  refine Does.ofExcept (fun _ _ ↦ trivial) fun headers hheaders ↦ Does.ask fun exchange sent' hcall ↦ ?_
  obtain ⟨hchased, hlength⟩ := h.ask hheaders
  cases hcall with
  | send _ hurl =>
    refine ⟨Or.inr ⟨hchased, by rw [List.length_cons]; omega⟩, ?_⟩
    cases exchange with
    | cancelled => exact Does.throw trivial
    | failed => exact Does.throw trivial
    | answered answered =>
      exact Does.pure ⟨hchased, by rw [List.length_cons]; omega, _, _, rfl, rfl, hurl answered rfl⟩

/-- **The loop**: the requests are a chain, and the response is the one to the last of them. -/
theorem requestFrom_does (left : ℕ) (h : Stands U a left url sent) :
    Does Sends (Sent U a) () sent (a.requestFrom U left url)
      (fun answered _ sent ↦ Chased U a sent ∧ ∃ last ∈ sent.head?, answered.response.url = last.url)
      fun _ _ _ ↦ True := by
  induction left generalizing url sent with
  | zero =>
    refine Does.bind (hop_does h) ?_
    rintro answered _ _ ⟨hchased, -, last, earlier, rfl, -, hurl⟩
    refine Does.ite (fun _ ↦ Does.throw trivial) fun _ ↦ Does.pure ⟨hchased, last, rfl, hurl⟩
  | succ left ih =>
    refine Does.bind (hop_does h) ?_
    rintro answered _ _ ⟨hchased, hlength, last, earlier, rfl, rfl, hurl⟩
    refine Does.ite (fun _ ↦ ?_) fun _ ↦ Does.pure ⟨hchased, last, rfl, hurl⟩
    refine Does.ofExcept (fun _ _ ↦ trivial) fun next hnext ↦ ih ⟨hchased, leads_of_redirect hnext, ?_⟩
    rw [List.length_cons] at hlength
    omega

theorem Sent.confines (h : Sent U a sent) (hinitial : Acceptable U a.allowHttp a.initial) : Confines U a sent := by
  rcases h with rfl | ⟨hchased, hlength⟩
  · refine ⟨Nat.zero_le _, ?_, .nil, .nil, ?_⟩
    · rintro _ ⟨⟩
    · rintro _ ⟨⟩
  · exact ⟨hlength, hchased.acceptable hinitial, hchased.secure, hchased.listed,
      fun request hrequest ↦ headers_eq_ok (hchased.headers request hrequest)⟩

/-- **Requests are confined**, whatever the servers answer: at every point of a call it has sent at most six requests,
each to an acceptable URL, never from a secure scheme to another one, to another origin only where the caller allowed
it, always for the same range, and with credentials exactly to the initial origin. What it returns is the answer to the
last of them, and its first was to the URL it was given. -/
theorem request_confined (U : UrlLibrary Url UrlOrigin) (a : Asking Url) (raw : String)
    (hinitial : parseUrl U raw a.allowHttp = .ok a.initial) :
    (∀ sent p, Reaches Sends [] ((a.request U).run.run ()) sent p → Confines U a sent) ∧
      ∀ answered t sent, Returns Sends [] ((a.request U).run.run ()) (.ok answered, t) sent →
        Confines U a sent ∧ (∃ last ∈ sent.head?, answered.response.url = last.url) ∧
          ∃ first ∈ sent.getLast?, first.url = a.initial := by
  have hdoes : Does Sends (Sent U a) () [] (a.request U) _ _ := requestFrom_does maxRedirects ⟨rfl, Nat.le_refl _⟩
  have hinitial := acceptable_of_parseUrl hinitial
  refine ⟨fun sent p hreaches ↦ (Ensures.reaches hdoes hreaches (Or.inl rfl)).1.confines hinitial, ?_⟩
  intro answered t sent hreturns
  have hsent := (Ensures.reaches hdoes hreturns.reaches (Or.inl rfl)).1
  obtain ⟨hchased, hlast⟩ := Ensures.returns hdoes hreturns
  refine ⟨hsent.confines hinitial, hlast, ?_⟩
  have hfirst := List.getLast?_eq_some_getLast hchased.ne_nil
  exact ⟨_, hfirst, hchased.getLast _ hfirst⟩

end Requests

/-! ### One redirect -/

namespace Sample

/-- A URL library with two origins. -/
def sites : UrlLibrary String String :=
  { Fhd.Sample.urls with
    origin := fun url ↦ if url = "https://b/f" then "https://b" else "https://a"
    portOrKnownDefault := fun _ ↦ some 443 }

/-- A secret for the one, and leave to be sent to the other. -/
def asking : Asking String := ⟨⟨some "Bearer 1", none, ["https://b"]⟩, false, "https://a/f", some (4, 9, "\"v\"")⟩

/-- The one redirects to the other. -/
def answering (sent : List (Request String)) :
    (op : RequestPort String) → Option (RequestAnswer String op × List (Request String))
  | .send request =>
    let response : Response String :=
      if request.url = "https://a/f" then ⟨302, [(.location, ascii "https://b/f")], request.url⟩
      else ⟨206, [], request.url⟩
    some (.answered ⟨response, .http11, .ended⟩, request :: sent)

theorem sends_of_answering (sent : List (Request String)) (op : RequestPort String) (x : RequestAnswer String op)
    (sent' : List (Request String)) (h : answering sent op = some (x, sent')) : Sends sent op x sent' := by
  cases op with
  | send request =>
    cases h
    refine .send _ fun answered hanswered ↦ ?_
    cases hanswered
    dsimp only
    split <;> rfl

end Sample

/-- A call that is sent from one origin to another leaves its secret behind. -/
theorem request_confined_elsewhere : ∃ answered t sent, Returns Sends [] ((Sample.asking.request Sample.sites).run.run ())
    (.ok answered, t) sent ∧ sent.map (fun request ↦ (request.url, request.headers.map (·.1))) =
      [("https://b/f", [.acceptEncoding, .range, .ifRange]),
        ("https://a/f", [.acceptEncoding, .authorization, .range, .ifRange])] ∧
    Confines Sample.sites Sample.asking sent := by
  have hover : (((Sample.asking.request Sample.sites).run.run ()).exec Sample.answering []).map
      (fun r ↦ (r.1.1.toBool, r.2.map fun request ↦ (request.url, request.headers.map (·.1)))) =
      some (true, [("https://b/f", [.acceptEncoding, .range, .ifRange]),
        ("https://a/f", [.acceptEncoding, .authorization, .range, .ifRange])]) := by
    decide +kernel
  obtain ⟨⟨⟨r, t⟩, sent⟩, hexec, hr⟩ := Option.map_eq_some_iff.1 hover
  cases r with
  | error e => cases hr
  | ok answered =>
    have hreturns := Returns.of_exec Sample.sends_of_answering hexec
    refine ⟨answered, t, sent, hreturns, (Prod.mk.inj hr).2, ?_⟩
    exact ((request_confined Sample.sites Sample.asking "https://a/f" (by decide +kernel)).2 answered t sent hreturns).1

end Fhd.DownloadEngine
