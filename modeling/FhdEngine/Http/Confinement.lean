import FhdEngine.Http.Redirects
import Mathlib.Data.List.Chain

/-!
# What redirects cannot do

A chain is confined by its binding: where it may go, how far, and what is asked on the way
(`redirects_confined`).

Credentials stay at the origin of the binding as long as the chain does. What a probe stores is only a URL,
though: a fetch that starts from it does not know whether the probe had been elsewhere before
(`keepsCredentials_iff`).
-/

namespace Fhd

variable {Url Origin : Type} [DecidableEq Origin] {U : Urls Url Origin} {digest : Bytes → Digest}
  {maxRedirects : ℕ} {binding : SourceBinding Url} {start : Url} {range : Option (ℕ × ℕ)} {ifRange : Option Bytes}
  {sent : List (Request Url)}

/-! ### Walks -/

namespace Walk

/-- Every request is the one that its chain has come to. -/
theorem chained (h : Walk U binding start range ifRange sent) {request : Request Url} {earlier : List (Request Url)}
    (hsent : request :: earlier <:+ sent) : request = Fhd.chained U binding range ifRange earlier request.url := by
  induction h with
  | nil => cases List.suffix_nil.1 hsent
  | first =>
    rcases List.suffix_cons_iff.1 hsent with heq | hsent
    · cases heq
      rfl
    · cases List.suffix_nil.1 hsent
  | hop h hhop ih =>
    rcases List.suffix_cons_iff.1 hsent with heq | hsent
    · cases heq
      rfl
    · exact ih hsent

theorem url_getLast (h : Walk U binding start range ifRange sent) : ∀ request ∈ sent.getLast?, request.url = start := by
  induction h with
  | nil => exact fun request hrequest ↦ by cases hrequest
  | first =>
    intro request hrequest
    cases hrequest
    rfl
  | hop h hhop ih =>
    intro request hrequest
    rw [List.getLast?_cons_cons] at hrequest
    exact ih request hrequest

theorem allowed (h : Walk U binding start range ifRange sent) (hstart : Allowed U binding start) :
    ∀ request ∈ sent, Allowed U binding request.url := by
  induction h with
  | nil => exact fun request hrequest ↦ by cases hrequest
  | first => exact List.forall_mem_singleton.2 hstart
  | hop h hhop ih => exact List.forall_mem_cons.2 ⟨hhop.allowed, ih⟩

/-- Once the scheme is secure it stays so. -/
theorem secure (h : Walk U binding start range ifRange sent) :
    sent.Pairwise fun later earlier ↦ U.scheme earlier.url = "https" → U.scheme later.url = "https" := by
  induction h with
  | nil => exact .nil
  | first => exact List.pairwise_singleton _ _
  | hop h hhop ih =>
    refine .cons (fun earlier hearlier hsecure ↦ hhop.secure ?_) ih
    rcases List.mem_cons.1 hearlier with rfl | hearlier
    · exact hsecure
    · exact List.rel_of_pairwise_cons ih hearlier hsecure

theorem secure_of_start (h : Walk U binding start range ifRange sent) (hstart : U.scheme start = "https") :
    ∀ request ∈ sent, U.scheme request.url = "https" := by
  induction h with
  | nil => exact fun request hrequest ↦ by cases hrequest
  | first => exact List.forall_mem_singleton.2 hstart
  | hop h hhop ih => exact List.forall_mem_cons.2 ⟨hhop.secure (ih _ List.mem_cons_self), ih⟩

theorem listed (h : Walk U binding start range ifRange sent) :
    sent.IsChain fun later earlier ↦ U.origin later.url ≠ U.origin earlier.url →
      U.asciiSerialization (U.origin later.url) ∈ binding.redirectOrigins := by
  induction h with
  | nil => exact .nil
  | first => exact .singleton _
  | hop h hhop ih => exact .cons_cons hhop.listed.resolve_left ih

/-- The headers of every request, up to the credentials. -/
theorem headers (h : Walk U binding start range ifRange sent) : ∀ request ∈ sent, ∃ credentials,
    request.headers = requestHeaders binding credentials range ifRange := by
  induction h with
  | nil => exact fun request hrequest ↦ by cases hrequest
  | first => exact List.forall_mem_singleton.2 ⟨_, rfl⟩
  | hop h hhop ih => exact List.forall_mem_cons.2 ⟨⟨_, rfl⟩, ih⟩

end Walk

/-- What is not a credential is asked with and without them. -/
theorem getAll_requestHeaders {name : HeaderName} (hauthorization : name ≠ .authorization) (hcookie : name ≠ .cookie)
    (credentials : Bool) : HeaderMap.getAll (requestHeaders binding credentials range ifRange) name =
      HeaderMap.getAll (requestHeaders binding false range ifRange) name := by
  cases credentials with
  | false => rfl
  | true =>
    cases hauth : binding.authorization <;> cases hcook : binding.cookie <;>
      simp [requestHeaders, HeaderMap.getAll, List.filter_cons, hauth, hcook, hauthorization.symm, hcookie.symm]

/-! ### Confinement -/

namespace Chain

/-- What was sent by the probe whose final URL a chain starts from. -/
def before (chain : Chain Url) : List (Request Url) := (chain.behind.map (·.sent)).getD []

/-- A chain starts from the URL of its binding or from the final URL of one of its probes. -/
def Own (chain : Chain Url) (binding : SourceBinding Url) : Prop := ∀ trail ∈ chain.behind, trail.binding = binding

/-- **A chain is confined**, together with the probe it starts from. -/
structure Confined (U : Urls Url Origin) (maxRedirects : ℕ) (binding : SourceBinding Url) (chain : Chain Url) :
    Prop where
  allowed : ∀ request ∈ chain.sent ++ chain.before, Allowed U binding request.url
  secure : (chain.sent ++ chain.before).Pairwise fun later earlier ↦
    U.scheme earlier.url = "https" → U.scheme later.url = "https"
  listed : (chain.sent ++ chain.before).IsChain fun later earlier ↦
    U.origin later.url ≠ U.origin earlier.url → U.asciiSerialization (U.origin later.url) ∈ binding.redirectOrigins
  few : chain.sent.length ≤ maxRedirects + 1
  range : ∀ request ∈ chain.sent, ∀ request' ∈ chain.sent,
    HeaderMap.getAll request.headers .range = HeaderMap.getAll request'.headers .range
  ifRange : ∀ request ∈ chain.sent, ∀ request' ∈ chain.sent,
    HeaderMap.getAll request.headers .ifRange = HeaderMap.getAll request'.headers .ifRange

variable {chain : Chain Url}

/-- Where an own chain starts, the probe before it has come. -/
theorem Sound.meets (h : chain.Sound U maxRedirects binding) (hown : chain.Own binding) :
    (∃ range ifRange, Walk U binding binding.url range ifRange chain.before) ∧
      (chain.before.head?.map (·.url)).getD binding.url = chain.start binding := by
  unfold Chain.before Chain.start
  cases hbehind : chain.behind with
  | none => exact ⟨⟨none, none, .nil⟩, rfl⟩
  | some trail =>
    obtain ⟨-, range, ifRange, hwalk⟩ := h.behind trail hbehind
    rw [hown trail hbehind] at hwalk
    exact ⟨⟨range, ifRange, hwalk⟩, rfl⟩

theorem Sound.confined (h : chain.Sound U maxRedirects binding) (hown : chain.Own binding)
    (hallowed : Allowed U binding binding.url) : chain.Confined U maxRedirects binding := by
  obtain ⟨⟨rangeBefore, ifRangeBefore, hbefore⟩, hmeet⟩ := h.meets hown
  obtain ⟨range, ifRange, hwalk⟩ := h.walk
  have hallowedBefore := hbefore.allowed hallowed
  -- the first request asks for the URL that the probe came to
  have hjoin : ∀ last ∈ chain.before.head?, chain.start binding = last.url := by
    intro last hlast
    rw [← hmeet, Option.mem_def.1 hlast]
    rfl
  have hstart : Allowed U binding (chain.start binding) := by
    cases hhead : chain.before.head? with
    | none => rwa [← hmeet, hhead]
    | some last =>
      rw [hjoin last hhead]
      exact hallowedBefore last (List.mem_of_mem_head? hhead)
  have hsame : ∀ {name}, name ≠ .authorization → name ≠ .cookie → ∀ request ∈ chain.sent,
      HeaderMap.getAll request.headers name =
        HeaderMap.getAll (requestHeaders binding false range ifRange) name := by
    intro name hauthorization hcookie request hrequest
    obtain ⟨credentials, heq⟩ := hwalk.headers request hrequest
    rw [heq]
    exact getAll_requestHeaders hauthorization hcookie credentials
  refine ⟨fun request hrequest ↦ ?_, List.pairwise_append.2 ⟨hwalk.secure, hbefore.secure, ?_⟩,
    hwalk.listed.append hbefore.listed ?_, h.few, fun request hrequest request' hrequest' ↦ ?_,
    fun request hrequest request' hrequest' ↦ ?_⟩
  · rcases List.mem_append.1 hrequest with hrequest | hrequest
    · exact hwalk.allowed hstart request hrequest
    · exact hallowedBefore request hrequest
  · intro later hlater earlier hearlier hsecure
    refine hwalk.secure_of_start ?_ later hlater
    cases hhead : chain.before with
    | nil =>
      rw [hhead] at hearlier
      cases hearlier
    | cons last sent =>
      rw [hjoin last (by rw [hhead]; rfl)]
      have hpairwise := hbefore.secure
      rw [hhead] at hpairwise hearlier
      rcases List.mem_cons.1 hearlier with rfl | hearlier
      · exact hsecure
      · exact List.rel_of_pairwise_cons hpairwise hearlier hsecure
  · intro first hfirst last hlast hne
    rw [hwalk.url_getLast first hfirst, hjoin last hlast] at hne
    exact absurd rfl hne
  · rw [hsame (by decide) (by decide) request hrequest, hsame (by decide) (by decide) request' hrequest']
  · rw [hsame (by decide) (by decide) request hrequest, hsame (by decide) (by decide) request' hrequest']

end Chain

theorem allowed_new {url : String} {authorization cookie : Option Bytes} {allowHttp : Bool}
    {redirectOrigins : List String}
    (h : SourceBinding.new U url authorization cookie allowHttp redirectOrigins = .ok binding) :
    Allowed U binding binding.url := by
  unfold SourceBinding.new at h
  split at h
  next => cases h
  next parsed hparsed =>
    split at h
    next => cases h
    next =>
      split at h
      next => cases h
      next =>
        split at h
        next => cases h
        next =>
          cases h
          exact allowed_of_parseUrl hparsed

/-- **Redirects are confined**, whatever the server answers and whoever else probes, fetches, binds or unbinds:
a chain under a binding that starts from its URL or from the final URL of one of its probes. -/
theorem redirects_confined (U : Urls Url Origin) (digest : Bytes → Digest) (maxRedirects : ℕ)
    (moves : List (HttpMove Url)) (n : ℕ) (url : String) (authorization cookie : Option Bytes) (allowHttp : Bool)
    (redirectOrigins : List String) (binding : SourceBinding Url)
    (hnew : SourceBinding.new U url authorization cookie allowHttp redirectOrigins = .ok binding)
    (hbinding : ((tracedAfter U digest maxRedirects moves).shared.chains n).binding = some binding)
    (hown : ((tracedAfter U digest maxRedirects moves).shared.chains n).Own binding) :
    ((tracedAfter U digest maxRedirects moves).shared.chains n).Confined U maxRedirects binding :=
  ((sound_tracedAfter moves).chains n binding hbinding).confined hown (allowed_new hnew)

def Sample.redirect (url : String) : HttpMove String := .advance 0 (.ok ⟨302, [(.location, ascii url)], ""⟩)

/-- A probe that is redirected to these URLs in turn, and a fetch after it. -/
def Sample.redirected (binding : SourceBinding String) (urls : List String) : List (HttpMove String) :=
  [.disturb (.bind Sample.source binding), .start (.probe Sample.source), .advance 0 (.error .transient)] ++
    urls.map Sample.redirect ++
    [.advance 0 (.ok (answerFor (Sample.representation 10) ⟨0, 1, Nat.zero_lt_one, one_le_i64Max⟩)),
      .advance 0 (.error .transient)] ++ Sample.fetching 1 10

theorem Sample.new_eq : SourceBinding.new Sample.urls "https://a/f" none none false [] = .ok Sample.binding := by
  have hurl : parseUrl Sample.urls "https://a/f" false = .ok "https://a/f" := by decide +kernel
  simp only [SourceBinding.new, hurl, parseOrigins, List.mergeSort_nil]
  rfl

/-- The chain of the fetch. -/
def Sample.fetched (U : Urls String String) (binding : SourceBinding String) (urls : List String) : Chain String :=
  (tracedAfter U Sample.tagDigest 2 (Sample.redirected binding urls)).shared.chains 1

theorem Sample.own_fetched {U : Urls String String} {binding : SourceBinding String} {urls : List String}
    (h : (Sample.fetched U binding urls).behind.map (·.binding) = some binding) :
    (Sample.fetched U binding urls).Own binding := by
  intro trail htrail
  rw [Option.mem_def.1 htrail] at h
  exact Option.some.inj h

/-- A probe that is redirected once, and a fetch after it. -/
theorem redirects_confined_once : (Sample.fetched Sample.urls Sample.binding ["https://a/g"]).Confined Sample.urls 2
    Sample.binding :=
  redirects_confined Sample.urls Sample.tagDigest 2 (Sample.redirected Sample.binding ["https://a/g"]) 1 _ _ _ _ _
    Sample.binding Sample.new_eq (by decide +kernel) (Sample.own_fetched (by decide +kernel))

/-! ### Credentials -/

def Request.carriesCredentials (request : Request Url) : Bool :=
  request.headers.any fun header ↦ header.1 = .authorization ∨ header.1 = .cookie

def SourceBinding.hasCredentials (binding : SourceBinding Url) : Bool :=
  binding.authorization.isSome || binding.cookie.isSome

theorem carriesCredentials_chained (earlier : List (Request Url)) (url : Url) :
    (chained U binding range ifRange earlier url).carriesCredentials = true ↔
      binding.hasCredentials = true ∧ stayed U binding earlier = true ∧ AtHome U binding url := by
  have hranged : ∀ credentials : Bool, (requestHeaders binding credentials range ifRange).any
      (fun header ↦ header.1 = .authorization ∨ header.1 = .cookie) = (credentials && binding.hasCredentials) := by
    intro credentials
    cases hauth : binding.authorization <;> cases hcook : binding.cookie <;> cases credentials <;>
      cases range <;> cases ifRange <;>
      simp [requestHeaders, SourceBinding.hasCredentials, hauth, hcook]
  rw [Request.carriesCredentials, chained, hranged, Bool.and_eq_true, Bool.and_eq_true, decide_eq_true_iff]
  exact and_comm

namespace Chain

/-- **Credentials stay with a chain that never left its origin**: a request that carries some asks for a URL at
the origin of the binding, and so did every hop by which that URL was reached. -/
def KeepsCredentials (U : Urls Url Origin) (binding : SourceBinding Url) (chain : Chain Url) : Prop :=
  ∀ request earlier, request :: earlier <:+ chain.sent → request.carriesCredentials = true →
    ∀ hop ∈ request :: earlier ++ chain.before, AtHome U binding hop.url

/-- A probe that left the origin of the binding and came back for its final URL. -/
def CameBack (U : Urls Url Origin) (binding : SourceBinding Url) (trail : Trail Url) : Prop :=
  (∀ url ∈ trail.final, AtHome U binding url) ∧ ∃ hop ∈ trail.sent, ¬AtHome U binding hop.url

variable {chain : Chain Url}

theorem Sound.keeps_iff (h : chain.Sound U maxRedirects binding) (hown : chain.Own binding) :
    chain.KeepsCredentials U binding ↔ (binding.hasCredentials = true → chain.sent ≠ [] →
      ∀ trail ∈ chain.behind, ¬CameBack U binding trail) := by
  obtain ⟨range, ifRange, hwalk⟩ := h.walk
  have hbehind : ∀ trail ∈ chain.behind, chain.before = trail.sent ∧
      ∀ url ∈ trail.final, chain.start binding = url := by
    intro trail htrail
    rw [before, start, Option.mem_def.1 htrail]
    exact ⟨rfl, fun url hurl ↦ by rw [Option.bind_some, Option.mem_def.1 hurl, Option.getD_some]⟩
  constructor
  · rintro hkeeps hcredentials hne trail htrail ⟨hfinal, hop, hhop, haway⟩
    obtain ⟨hbefore, hstart⟩ := hbehind trail htrail
    obtain ⟨last, hlast⟩ : ∃ url, url ∈ trail.final := by
      obtain ⟨asked, sent, hsent⟩ := List.exists_cons_of_ne_nil (h.behind trail htrail).sent_ne
      exact ⟨asked.url, by rw [Trail.final, hsent]; rfl⟩
    -- the first request of the chain carries the credentials
    have hfirst : [chain.sent.getLast hne] <:+ chain.sent := ⟨_, List.dropLast_append_getLast hne⟩
    have hchained := hwalk.chained hfirst
    have hurl := hwalk.url_getLast _ (List.getLast?_eq_some_getLast hne)
    have hcarries : (chain.sent.getLast hne).carriesCredentials = true := by
      rw [hchained, carriesCredentials_chained, hurl, hstart last hlast]
      exact ⟨hcredentials, rfl, hfinal last hlast⟩
    refine haway (hkeeps _ [] hfirst hcarries hop (List.mem_append_right _ ?_))
    rwa [hbefore]
  · intro hback asked earlier hsent hcarries
    rw [hwalk.chained hsent, carriesCredentials_chained] at hcarries
    obtain ⟨hcredentials, hstayed, hhome⟩ := hcarries
    have hhomes : ∀ hop ∈ asked :: earlier, AtHome U binding hop.url :=
      List.forall_mem_cons.2 ⟨hhome, fun hop hhop ↦ of_decide_eq_true (List.all_eq_true.1 hstayed hop hhop)⟩
    have hne : chain.sent ≠ [] := fun hnil ↦ by
      rw [hnil] at hsent
      cases List.suffix_nil.1 hsent
    refine List.forall_mem_append.2 ⟨hhomes, fun hop hhop ↦ ?_⟩
    cases htrail : chain.behind with
    | none =>
      rw [before, htrail] at hhop
      cases hhop
    | some trail =>
      obtain ⟨hbefore, hstart⟩ := hbehind trail htrail
      by_contra haway
      refine hback hcredentials hne trail htrail ⟨fun url hurl ↦ ?_, hop, by rwa [← hbefore], haway⟩
      -- the oldest request asks for the final URL of the probe
      have hlast : (asked :: earlier).getLast? = chain.sent.getLast? := by
        obtain ⟨later, hlater⟩ := hsent
        rw [← hlater, List.getLast?_append_cons]
      have holdest := List.getLast?_eq_some_getLast (List.cons_ne_nil asked earlier)
      rw [← hstart url hurl, ← hwalk.url_getLast _ (hlast ▸ holdest)]
      exact hhomes _ (List.getLast_mem _)

end Chain

/-- **When credentials stay** with a chain that starts from the URL of its binding or from the final URL of one
of its probes: exactly when that probe did not leave the origin of the binding and come back, or there is nothing
to send. -/
theorem keepsCredentials_iff (U : Urls Url Origin) (digest : Bytes → Digest) (maxRedirects : ℕ)
    (moves : List (HttpMove Url)) (n : ℕ) (binding : SourceBinding Url)
    (hbinding : ((tracedAfter U digest maxRedirects moves).shared.chains n).binding = some binding)
    (hown : ((tracedAfter U digest maxRedirects moves).shared.chains n).Own binding) :
    ((tracedAfter U digest maxRedirects moves).shared.chains n).KeepsCredentials U binding ↔
      (binding.hasCredentials = true → ((tracedAfter U digest maxRedirects moves).shared.chains n).sent ≠ [] →
        ∀ trail ∈ ((tracedAfter U digest maxRedirects moves).shared.chains n).behind,
          ¬Chain.CameBack U binding trail) :=
  ((sound_tracedAfter moves).chains n binding hbinding).keeps_iff hown

/-! ### There and back -/

/-- The URL library at two origins. -/
def Sample.twoSites : Urls String String :=
  { Sample.urls with origin := fun url ↦ if url = "https://b/f" then "https://b" else "https://a" }

/-- A credential for one of them, and leave to be sent to the other and back. -/
def Sample.trusting : SourceBinding String :=
  ⟨"https://a/f", some [65], none, false, ["https://a", "https://b"], by decide⟩

/-- A probe that is sent away, and a fetch after it. -/
theorem keepsCredentials_iff_away :
    (Sample.fetched Sample.twoSites Sample.trusting ["https://b/f"]).KeepsCredentials Sample.twoSites Sample.trusting ↔
      (Sample.trusting.hasCredentials = true →
        (Sample.fetched Sample.twoSites Sample.trusting ["https://b/f"]).sent ≠ [] →
        ∀ trail ∈ (Sample.fetched Sample.twoSites Sample.trusting ["https://b/f"]).behind,
          ¬Chain.CameBack Sample.twoSites Sample.trusting trail) :=
  keepsCredentials_iff Sample.twoSites Sample.tagDigest 2 (Sample.redirected Sample.trusting ["https://b/f"]) 1
    Sample.trusting (by decide +kernel) (Sample.own_fetched (by decide +kernel))

/-- **A probe that is sent away and back**: the fetch after it carries the credentials. -/
theorem not_keepsCredentials : ¬∀ (U : Urls String String) (digest : Bytes → Digest) (maxRedirects : ℕ)
    (moves : List (HttpMove String)) (n : ℕ) (binding : SourceBinding String),
    ((tracedAfter U digest maxRedirects moves).shared.chains n).binding = some binding →
    ((tracedAfter U digest maxRedirects moves).shared.chains n).Own binding →
    ((tracedAfter U digest maxRedirects moves).shared.chains n).KeepsCredentials U binding := by
  intro h
  have hkeeps := h Sample.twoSites Sample.tagDigest 2 (Sample.redirected Sample.trusting ["https://b/f", "https://a/g"])
    1 Sample.trusting (by decide +kernel) (Sample.own_fetched (by decide +kernel))
  have hsent : (Sample.fetched Sample.twoSites Sample.trusting ["https://b/f", "https://a/g"]).sent.map
      (·.carriesCredentials) = [true] := by decide +kernel
  have hbefore : "https://b/f" ∈ (Sample.fetched Sample.twoSites Sample.trusting
      ["https://b/f", "https://a/g"]).before.map (·.url) := by decide +kernel
  obtain ⟨asked, hasked, hcarries⟩ := List.map_eq_singleton_iff.1 hsent
  obtain ⟨hop, hhop, hurl⟩ := List.mem_map.1 hbefore
  have hhome := hkeeps asked [] (hasked ▸ List.suffix_refl _) hcarries hop (List.mem_append_right _ hhop)
  rw [AtHome, hurl] at hhome
  exact absurd hhome (by decide)

end Fhd
