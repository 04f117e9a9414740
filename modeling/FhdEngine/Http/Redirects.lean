import FhdEngine.Http.FetchBinding
import Mathlib.Logic.Function.Basic

/-!
# What was sent on the way to a URL

The transport with a record beside it: what every probe and every fetch has sent, newest first, and for every
stored URL what the probe sent that ended there. The record answers nothing (`shared_tracedAfter`).

`Walk` says what a chain of redirects may look like under a binding, one request after another; whatever the
server answers and whoever else probes, fetches, binds or unbinds, every chain is a walk from the binding's URL
or from a stored one (`sound_tracedAfter`).
-/

namespace Fhd

open Process (Prog System Pool Safe Contract Discipline Disciplined)

/-- What a probe sent, newest first. -/
structure Trail (Url : Type) where
  binding : SourceBinding Url
  sent : List (Request Url)

/-- What a probe or a fetch has sent, newest first, and what was sent by the probe whose final URL it
starts from. -/
structure Chain (Url : Type) where
  binding : Option (SourceBinding Url)
  behind : Option (Trail Url)
  sent : List (Request Url)

def Chain.push {Url : Type} (chain : Chain Url) (request : Request Url) : Chain Url :=
  { chain with sent := request :: chain.sent }

structure Traced (Url : Type) where
  sources : Sources Url
  slots : SourceRef → Option (Trail Url)
  chains : ℕ → Chain Url

section Urls

variable {Url Origin : Type}

/-- The client follows no redirects: a response comes from where it was asked for. -/
def HttpPort.answered : HttpPort Url → Except TransportError (Response Url) → Except TransportError (Response Url)
  | .request asked, .ok response => .ok { response with url := asked.url }
  | _, answer => answer

def serveTraced (n : ℕ) (s : Traced Url) (op : HttpPort Url) (answer : Except TransportError (Response Url)) :
    HttpAnswer Url op × Traced Url :=
  let served := serveHttp s.sources op (op.answered answer)
  let chain := s.chains n
  let record (chain : Chain Url) : Traced Url := ⟨served.2, s.slots, Function.update s.chains n chain⟩
  (served.1,
    match op with
    | .binding source => record ⟨s.sources.bindings.lookup source, none, []⟩
    | .probed source =>
      record { chain with behind := (s.sources.probed.lookup source).bind fun _ ↦ s.slots source }
    | .insertProbed source _ =>
      ⟨served.2, Function.update s.slots source (chain.binding.map (⟨·, chain.sent⟩)), s.chains⟩
    | .removeProbed _ => ⟨served.2, s.slots, s.chains⟩
    | .request request => record (chain.push request))

variable [DecidableEq Origin] (U : Urls Url Origin) (digest : Bytes → Digest) (maxRedirects : ℕ)

/-- The transport and its record. -/
def tracedSystem : System (Traced Url) HttpCall (HttpPort Url) (HttpAnswer Url) (HttpResult Url)
    (Except TransportError (Response Url)) (Rebinding Url) where
  program := (httpSystem U digest maxRedirects).program
  serve := serveTraced
  disturb s e := { s with sources := (httpSystem U digest maxRedirects).disturb s.sources e }

/-- Nobody has called yet. -/
def untraced : Pool (Traced Url) HttpCall (HttpPort Url) (HttpAnswer Url) (HttpResult Url) :=
  ⟨⟨Sources.empty, fun _ ↦ none, fun _ ↦ ⟨none, none, []⟩⟩, []⟩

/-- The record after some moves. -/
abbrev tracedAfter (moves : List (HttpMove Url)) :=
  (tracedSystem U digest maxRedirects).run untraced moves

/-! ### What a chain looks like -/

/-- A URL that a binding lets through. -/
structure Allowed (binding : SourceBinding Url) (url : Url) : Prop where
  scheme : U.scheme url = "https" ∨ U.scheme url = "http" ∧ binding.allowHttp = true
  username : U.username url = ""
  password : U.password url = none
  fragment : U.fragment url = none

/-- A redirect that a binding lets through. -/
structure Hop (binding : SourceBinding Url) (url next : Url) : Prop where
  allowed : Allowed U binding next
  secure : U.scheme url = "https" → U.scheme next = "https"
  listed : U.origin next = U.origin url ∨ U.asciiSerialization (U.origin next) ∈ binding.redirectOrigins

/-- The origin of the binding. -/
def AtHome (binding : SourceBinding Url) (url : Url) : Prop := U.origin url = U.origin binding.url

instance (binding : SourceBinding Url) (url : Url) : Decidable (AtHome U binding url) :=
  inferInstanceAs (Decidable (_ = _))

/-- No request has left the origin of the binding. -/
def stayed (binding : SourceBinding Url) (sent : List (Request Url)) : Bool :=
  sent.all fun request ↦ AtHome U binding request.url

/-- One request of a chain, after those before it. -/
def chained (binding : SourceBinding Url) (range : Option (ℕ × ℕ)) (ifRange : Option Bytes)
    (sent : List (Request Url)) (url : Url) : Request Url :=
  ⟨url, requestHeaders binding (stayed U binding sent && AtHome U binding url) range ifRange⟩

/-- **A chain of redirects**, newest first. -/
inductive Walk (binding : SourceBinding Url) (start : Url) (range : Option (ℕ × ℕ)) (ifRange : Option Bytes) :
    List (Request Url) → Prop
  | nil : Walk binding start range ifRange []
  | first : Walk binding start range ifRange [chained U binding range ifRange [] start]
  | hop {last : Request Url} {sent : List (Request Url)} {next : Url}
      (h : Walk binding start range ifRange (last :: sent)) (hhop : Hop U binding last.url next) :
      Walk binding start range ifRange (chained U binding range ifRange (last :: sent) next :: last :: sent)

/-- A trail ends at the final URL of a probe of its binding. -/
structure Trail.Sound (trail : Trail Url) : Prop where
  sent_ne : trail.sent ≠ []
  walk : ∃ range ifRange, Walk U trail.binding trail.binding.url range ifRange trail.sent

/-- Where a trail ends. -/
def Trail.final (trail : Trail Url) : Option Url := trail.sent.head?.map (·.url)

/-- Where a chain starts. -/
def Chain.start (chain : Chain Url) (binding : SourceBinding Url) : Url :=
  (chain.behind.bind Trail.final).getD binding.url

structure Chain.Sound (chain : Chain Url) (binding : SourceBinding Url) : Prop where
  behind : ∀ trail ∈ chain.behind, trail.Sound U
  few : chain.sent.length ≤ maxRedirects + 1
  walk : ∃ range ifRange, Walk U binding (chain.start binding) range ifRange chain.sent

/-- **The record is sound**: every stored URL has its trail, and every chain is a walk. -/
structure Traced.Sound (s : Traced Url) : Prop where
  slots : ∀ source, ∀ r ∈ s.sources.probed.lookup source, ∃ trail, s.slots source = some trail ∧
    trail.Sound U ∧ trail.final = some r.url
  chains : ∀ n, ∀ binding ∈ (s.chains n).binding, (s.chains n).Sound U maxRedirects binding

/-! ### Every step keeps the record sound -/

variable {U digest maxRedirects}

theorem allowed_of_parseUrl {raw : String} {binding : SourceBinding Url} {url : Url}
    (h : parseUrl U raw binding.allowHttp = .ok url) : Allowed U binding url := by
  unfold parseUrl at h
  split at h
  next => cases h
  next =>
    split at h
    next => cases h
    next =>
      split at h
      next => cases h
      next hok =>
        split at h
        next => cases h
        next hhttp =>
          cases h
          obtain ⟨hscheme, hrest⟩ := not_or.1 hok
          obtain ⟨-, hrest⟩ := not_or.1 hrest
          obtain ⟨husername, hrest⟩ := not_or.1 hrest
          obtain ⟨hpassword, hfragment⟩ := not_or.1 hrest
          refine ⟨?_, not_not.1 husername, by simpa using hpassword, by simpa using hfragment⟩
          rcases not_not.1 hscheme with hscheme | hscheme
          · refine Or.inr ⟨hscheme, ?_⟩
            by_contra hnot
            exact hhttp ⟨hscheme, by simpa using hnot⟩
          · exact Or.inl hscheme

theorem redirectTo_eq_ok {binding : SourceBinding Url} {url next : Url} {headers : HeaderMap}
    (h : redirectTo U binding url headers = .ok next) : Hop U binding url next := by
  unfold redirectTo at h
  split at h
  next => cases h
  next =>
    split at h
    next => cases h
    next =>
      split at h
      next => cases h
      next =>
        split at h
        next => cases h
        next parsed hparsed =>
          split at h
          next => cases h
          next hsecure =>
            split at h
            next => cases h
            next hlisted =>
              cases h
              refine ⟨allowed_of_parseUrl hparsed, fun hurl ↦ ?_, ?_⟩
              · by_contra hnext
                exact hsecure ⟨hurl, hnext⟩
              · by_contra hnot
                rw [not_or] at hnot
                exact hlisted hnot

theorem Traced.Sound.record {s : Traced Url} (h : s.Sound U maxRedirects) {n : ℕ} {chain : Chain Url}
    (hchain : ∀ binding ∈ chain.binding, chain.Sound U maxRedirects binding) :
    Traced.Sound U maxRedirects ⟨s.sources, s.slots, Function.update s.chains n chain⟩ where
  slots := h.slots
  chains := fun m ↦ by
    dsimp only
    by_cases hm : m = n
    · subst hm
      rw [Function.update_self]
      exact hchain
    · rw [Function.update_of_ne hm]
      exact h.chains m

/-- A call relies on its own chain, and leaves those of others alone. -/
def traceDiscipline (U : Urls Url Origin) (maxRedirects : ℕ) : Discipline (Traced Url) HttpCall (HttpResult Url) where
  inv := Traced.Sound U maxRedirects
  fresh _ _ := True
  rely n s s' := s'.chains n = s.chains n
  guarantee n s s' := ∀ m ≠ n, s'.chains m = s.chains m
  post _ _ _ _ := True

/-- What a call keeps, with this postcondition. -/
abbrev Traces (U : Urls Url Origin) (maxRedirects n : ℕ) {α : Type} (Q : α → Traced Url → Prop)
    (p : Prog (HttpPort Url) (HttpAnswer Url) α) (s : Traced Url) : Prop :=
  Safe (serveTraced n) (traceDiscipline U maxRedirects).inv ((traceDiscipline U maxRedirects).rely n)
    ((traceDiscipline U maxRedirects).guarantee n) Q p s

/-- A chain that has come to this URL. -/
structure Chain.EndsAt (chain : Chain Url) (binding : SourceBinding Url) (behind : Option (Trail Url)) (url : Url) :
    Prop where
  binding : chain.binding = some binding
  behind : chain.behind = behind
  sent : chain.sent.head?.map (·.url) = some url

/-- **The loop of `send`** goes on with the chain. -/
theorem sendFrom_traces {binding : SourceBinding Url} {range : Option (ℕ × ℕ)} {ifRange : Option Bytes} {n : ℕ}
    {behind : Option (Trail Url)} (hops : ℕ) (url : Url) (credentials : Bool) {s : Traced Url} {chain : Chain Url}
    (hchain : s.chains n = chain) (hbinding : chain.binding = some binding) (hbehind : chain.behind = behind)
    (hhops : chain.sent.length + hops = maxRedirects + 1)
    (hcredentials : credentials = (stayed U binding chain.sent && AtHome U binding url))
    (hwalk : Walk U binding (chain.start binding) range ifRange (chained U binding range ifRange chain.sent url ::
      chain.sent)) :
    Traces U maxRedirects n (fun r s ↦ ∀ response, r = .ok response → (s.chains n).EndsAt binding behind response.url)
      (sendFrom U binding range ifRange hops url credentials).run s := by
  induction hops generalizing url credentials s chain with
  | zero => exact fun _ _ _ _ h ↦ by cases h
  | succ hops ih =>
    unfold sendFrom
    split
    next => exact fun _ _ _ _ h ↦ by cases h
    next =>
      intro s' hs' hI answer
      have hchain' : s'.chains n = chain := hs'.trans hchain
      have hasked : (⟨url, requestHeaders binding credentials range ifRange⟩ : Request Url) =
          chained U binding range ifRange chain.sent url := by rw [hcredentials]; rfl
      have hsound := hI.chains n binding (by rw [hchain', hbinding]; rfl)
      rw [hchain'] at hsound
      have hstate : (serveTraced n s' (.request ⟨url, requestHeaders binding credentials range ifRange⟩) answer).2 =
          ⟨s'.sources, s'.slots, Function.update s'.chains n
            (chain.push (chained U binding range ifRange chain.sent url))⟩ := by
        rw [← hasked, ← hchain']
        rfl
      refine ⟨?_, ?_, ?_⟩
      · rw [hstate]
        refine hI.record fun binding' hbinding' ↦ ?_
        obtain rfl : binding = binding' := Option.some.inj (hbinding.symm.trans hbinding')
        refine ⟨hsound.behind, ?_, range, ifRange, hwalk⟩
        show chain.sent.length + 1 ≤ maxRedirects + 1
        omega
      · rw [hstate]
        exact fun m hm ↦ Function.update_of_ne hm _ _
      · rw [hstate]
        have hself := Function.update_self n (chain.push (chained U binding range ifRange chain.sent url)) s'.chains
        have hbound : (chain.push (chained U binding range ifRange chain.sent url)).binding = some binding := hbinding
        have hfrom : (chain.push (chained U binding range ifRange chain.sent url)).behind = behind := hbehind
        have hstayed : stayed U binding (chained U binding range ifRange chain.sent url :: chain.sent) =
            credentials := by
          rw [hcredentials, Bool.and_comm]
          rfl
        cases answer with
        | error error => exact fun _ _ _ _ h ↦ by cases h
        | ok response =>
          show Traces U maxRedirects n _ (ExceptT.run (if (!isRedirect response.status) = true then _ else _)) _
          split
          next =>
            intro s'' hs'' _ response' h
            cases h
            have hend := hs''.trans hself
            rw [hend]
            exact ⟨hbinding, hbehind, rfl⟩
          next =>
            split
            next => exact fun _ _ _ _ h ↦ by cases h
            next next hnext =>
              refine ih next _ hself hbound hfrom ?_ ?_ (.hop hwalk (redirectTo_eq_ok hnext))
              · show chain.sent.length + 1 + hops = maxRedirects + 1
                omega
              · exact congrArg (· && _) hstayed.symm

/-- The chain of a probe is the trail of its final URL. -/
theorem Chain.EndsAt.trail {chain : Chain Url} {binding : SourceBinding Url} {url : Url}
    (h : chain.EndsAt binding none url) (hsound : chain.Sound U maxRedirects binding) :
    Trail.Sound U ⟨binding, chain.sent⟩ := by
  obtain ⟨range, ifRange, hwalk⟩ := hsound.walk
  refine ⟨fun hnil ↦ ?_, range, ifRange, ?_⟩
  · have hsent := h.sent
    rw [show chain.sent = [] from hnil] at hsent
    cases hsent
  · rw [Chain.start, h.behind] at hwalk
    exact hwalk

theorem Traced.Sound.store {s : Traced Url} (h : s.Sound U maxRedirects) {source : SourceRef} {trail : Trail Url}
    {r : Representation Url} (htrail : trail.Sound U) (hfinal : trail.final = some r.url) :
    Traced.Sound U maxRedirects ⟨{ s.sources with probed := s.sources.probed.insert source r },
      Function.update s.slots source (some trail), s.chains⟩ where
  slots := fun source' r' hr' ↦ by
    dsimp only at hr' ⊢
    by_cases hsource : source' = source
    · subst hsource
      rw [AList.lookup_insert, Option.mem_some_iff] at hr'
      subst hr'
      exact ⟨trail, Function.update_self .., htrail, hfinal⟩
    · rw [AList.lookup_insert_ne hsource] at hr'
      rw [Function.update_of_ne hsource]
      exact h.slots source' r' hr'
  chains := h.chains

theorem Traced.Sound.forget {s : Traced Url} (h : s.Sound U maxRedirects) (source : SourceRef)
    (bindings : AList fun _ : SourceRef ↦ SourceBinding Url) :
    Traced.Sound U maxRedirects ⟨⟨bindings, s.sources.probed.erase source⟩, s.slots, s.chains⟩ where
  slots := fun source' r' hr' ↦ by
    dsimp only at hr' ⊢
    by_cases hsource : source' = source
    · subst hsource
      rw [AList.lookup_erase] at hr'
      cases hr'
    · rw [AList.lookup_erase_ne hsource] at hr'
      exact h.slots source' r' hr'
  chains := h.chains

/-- A new chain, which starts from the URL of its binding. -/
theorem Chain.sound_new (binding : SourceBinding Url) : Chain.Sound U maxRedirects ⟨some binding, none, []⟩ binding :=
  ⟨fun _ h ↦ (by cases h), Nat.zero_le _, none, none, .nil⟩

theorem Traces.bindExcept {n : ℕ} {ε α β : Type} {x : ExceptT ε (Prog (HttpPort Url) (HttpAnswer Url)) α}
    {f : α → ExceptT ε (Prog (HttpPort Url) (HttpAnswer Url)) β} {Q : Except ε β → Traced Url → Prop}
    {s : Traced Url} (hI : s.Sound U maxRedirects)
    (h : Traces U maxRedirects n (fun r s ↦
      match r with
      | .ok a => Traces U maxRedirects n Q (f a).run s
      | .error e => Traces U maxRedirects n Q (.done (.error e)) s) x.run s) :
    Traces U maxRedirects n Q (x >>= f).run s := by
  have hrefl : ∀ s : Traced Url, (traceDiscipline U maxRedirects).rely n s s := fun _ ↦ rfl
  exact Safe.bindExcept hrefl hI (h.mono fun r s _ hr ↦ by cases r <;> exact hr)

/-- A request, wherever its chain starts. -/
theorem send_traces {binding : SourceBinding Url} {behind : Option (Trail Url)} {n : ℕ} {s : Traced Url}
    (hchain : s.chains n = ⟨some binding, behind, []⟩) (start : Url)
    (hstart : Chain.start ⟨some binding, behind, []⟩ binding = start) (range : Option (ℕ × ℕ)) (ifRange : Option Bytes) :
    Traces U maxRedirects n (fun r s ↦ ∀ response, r = .ok response → (s.chains n).EndsAt binding behind response.url)
      (send U maxRedirects binding start range ifRange).run s := by
  subst hstart
  exact sendFrom_traces _ _ _ hchain rfl rfl (Nat.zero_add _) rfl .first

/-- A call that has looked up its binding. -/
theorem binding_traces {n : ℕ} {α : Type} {source : SourceRef} {Q : α → Traced Url → Prop}
    {next : Option (SourceBinding Url) → Prog (HttpPort Url) (HttpAnswer Url) α} {s : Traced Url}
    (h : ∀ binding (s : Traced Url), s.Sound U maxRedirects → s.chains n = ⟨binding, none, []⟩ →
      Traces U maxRedirects n Q (next binding) s) :
    Traces U maxRedirects n Q (.call (.binding source) next) s := by
  intro s' _ hI answer
  have hsound : Traced.Sound U maxRedirects (serveTraced n s' (.binding source) answer).2 :=
    hI.record fun binding hbinding ↦ by
      dsimp only at hbinding
      rw [hbinding]
      exact Chain.sound_new binding
  exact ⟨hsound, fun m hm ↦ Function.update_of_ne hm _ _, h _ _ hsound (Function.update_self ..)⟩

theorem probe_traces (n : ℕ) (source : SourceRef) (s : Traced Url) :
    Traces U maxRedirects n (fun _ _ ↦ True) (probe U digest maxRedirects source).run s := by
  refine binding_traces fun binding s hI hchain ↦ ?_
  cases binding with
  | none => exact fun _ _ _ ↦ trivial
  | some binding =>
    refine Traces.bindExcept hI ((send_traces hchain binding.url rfl (some (0, 1)) none).mono fun r s hI hr ↦ ?_)
    cases r with
    | error error => exact fun _ _ _ ↦ trivial
    | ok response =>
      have hend := hr response rfl
      show Traces U maxRedirects n _
        ((MonadExcept.ofExcept (readProbe response) : HttpM Url (ℕ × Option Bytes)) >>= _).run s
      cases readProbe response with
      | error error => exact fun _ _ _ ↦ trivial
      | ok read =>
        obtain ⟨total, etag⟩ := read
        cases etag with
        | none => exact fun s' hs' hI _ ↦ ⟨hI.forget source s'.sources.bindings, fun _ _ ↦ rfl, fun _ _ _ ↦ trivial⟩
        | some etag =>
          intro s' hs' hI _
          have hend' : (s'.chains n).EndsAt binding none response.url := by rwa [show s'.chains n = _ from hs']
          have hslot : (s'.chains n).binding.map (Trail.mk · (s'.chains n).sent) =
              some ⟨binding, (s'.chains n).sent⟩ := by
            rw [hend'.binding]
            rfl
          refine ⟨?_, fun _ _ ↦ rfl, fun _ _ _ ↦ trivial⟩
          show Traced.Sound U maxRedirects ⟨_, Function.update s'.slots source _, _⟩
          rw [hslot]
          exact hI.store (hend'.trail (hI.chains n binding hend'.binding)) hend'.sent

theorem fetch_traces (n : ℕ) (source : SourceRef) (range : ByteRange) (validator : Option Digest) (s : Traced Url) :
    Traces U maxRedirects n (fun _ _ ↦ True) (fetch U digest maxRedirects source range validator).run s := by
  refine binding_traces fun binding s hI hchain ↦ ?_
  cases binding with
  | none => exact fun _ _ _ ↦ trivial
  | some binding =>
    intro s' hs' hI answer
    have hchain' : s'.chains n = ⟨some binding, none, []⟩ := (show s'.chains n = _ from hs').trans hchain
    have hstate : (serveTraced n s' (.probed source) answer).2 = ⟨s'.sources, s'.slots, Function.update s'.chains n
        ⟨some binding, (s'.sources.probed.lookup source).bind fun _ ↦ s'.slots source, []⟩⟩ := by
      show (⟨s'.sources, s'.slots, Function.update s'.chains n ⟨(s'.chains n).binding, _, (s'.chains n).sent⟩⟩ :
        Traced Url) = _
      rw [hchain']
    -- what is behind the chain ends at the URL it starts from
    have hbehind : (∀ trail ∈ (s'.sources.probed.lookup source).bind fun _ ↦ s'.slots source, trail.Sound U) ∧
        Chain.start ⟨some binding, (s'.sources.probed.lookup source).bind fun _ ↦ s'.slots source, []⟩ binding =
          ((s'.sources.probed.lookup source).map (·.url)).getD binding.url := by
      cases hprobed : s'.sources.probed.lookup source with
      | none => exact ⟨fun _ h ↦ (by cases h), rfl⟩
      | some r =>
        obtain ⟨trail, hslot, htrail, hfinal⟩ := hI.slots source r hprobed
        refine ⟨fun trail' h ↦ ?_, ?_⟩
        · rw [show trail = trail' from Option.some.inj (hslot.symm.trans h)] at htrail
          exact htrail
        · show ((s'.slots source).bind Trail.final).getD binding.url = r.url
          rw [hslot, show (some trail).bind Trail.final = _ from hfinal]
          rfl
    have hsound : Traced.Sound U maxRedirects (serveTraced n s' (.probed source) answer).2 := by
      rw [hstate]
      refine hI.record fun binding' h ↦ ?_
      cases h
      exact ⟨hbehind.1, Nat.zero_le _, none, none, .nil⟩
    refine ⟨hsound, ?_, ?_⟩
    · rw [hstate]
      exact fun m hm ↦ Function.update_of_ne hm _ _
    · have hchain'' := Function.update_self n (⟨some binding, (s'.sources.probed.lookup source).bind fun _ ↦
        s'.slots source, []⟩ : Chain Url) s'.chains
      rw [hstate] at hsound ⊢
      show Traces U maxRedirects n _
        (fetchProbed U digest maxRedirects binding range validator (s'.sources.probed.lookup source)).run _
      unfold fetchProbed
      split
      next => exact fun _ _ _ ↦ trivial
      next =>
        split
        next => exact fun _ _ _ ↦ trivial
        next =>
          refine Traces.bindExcept hsound ((send_traces hchain'' _ hbehind.2 _ _).mono fun r s hI _ ↦ ?_)
          cases r with
          | error error => exact fun _ _ _ ↦ trivial
          | ok response =>
            show Traces U maxRedirects n _ (MonadExcept.ofExcept
              (checkFetched (s'.sources.probed.lookup source) range response) : HttpM Url (Response Url)).run s
            cases checkFetched (s'.sources.probed.lookup source) range response <;> exact fun _ _ _ ↦ trivial

/-- **Whoever else calls**, every call keeps the record sound. -/
theorem traceContract : Contract (tracedSystem U digest maxRedirects) (traceDiscipline U maxRedirects) where
  refl _ _ := rfl
  trans _ _ _ _ hab hbc := hbc.trans hab
  others hnm h := h _ hnm.symm
  disturb s e hI := by
    refine ⟨?_, fun _ ↦ rfl⟩
    cases e with
    | bind source binding =>
      refine ⟨fun source' r hr ↦ hI.slots source' r ?_, hI.chains⟩
      have hprobed : (s.sources.bind source binding).2.probed = s.sources.probed := by
        unfold Sources.bind
        split <;> rfl
      rw [← hprobed]
      exact hr
    | unbind source => exact hI.forget source _
  fresh _ _ := trivial
  start n call s hI _ := by
    cases call with
    | probe source =>
      refine Traces.bindExcept hI ((probe_traces n source s).mono fun r s _ _ ↦ ?_)
      cases r <;> exact fun _ _ _ ↦ trivial
    | fetch source range held =>
      refine Traces.bindExcept hI ((fetch_traces n source range held.validator s).mono fun r s _ _ ↦ ?_)
      cases r <;> exact fun _ _ _ ↦ trivial

theorem sound_tracedAfter (moves : List (HttpMove Url)) :
    (tracedAfter U digest maxRedirects moves).shared.Sound U maxRedirects := by
  refine (traceContract.run (P := untraced) ⟨⟨fun _ _ h ↦ (by cases h), fun _ _ h ↦ (by cases h)⟩,
    fun _ _ ↦ trivial, fun n x p h ↦ ?_⟩ moves).inv
  simp [untraced] at h

/-- **The record answers nothing**: it is beside the transport, as long as responses come from where they were
asked for. -/
theorem shared_tracedAfter {moves : List (HttpMove Url)}
    (h : (httpSystem U digest maxRedirects).Throughout (Process.Settled HttpPort.answered) idleTransport moves) :
    transportAfter U digest maxRedirects moves = ⟨(tracedAfter U digest maxRedirects moves).shared.sources,
      (tracedAfter U digest maxRedirects moves).procs⟩ := by
  refine System.run_erase (S := tracedSystem U digest maxRedirects) (π := Traced.sources) (P := untraced)
    (fun _ ↦ rfl) (fun n s op answer ↦ ?_) (fun _ _ ↦ rfl) h
  cases op <;> rfl

end Urls

end Fhd
