import FhdEngine.Http.Transport

/-!
# What a fetch is bound to

A fetch looks up once what was probed, and everything it demands of the server comes from there: the
entity tag, the range and the total. Its caller handed in the validator of its own probe, which is compared
with that of the slot; the total its probe reported is not. So a fetch keeps its promise exactly when the
slot, at the moment it is read, stands for what the caller holds (`StandsFor`).
-/

namespace Fhd

open Process (Prog System Pool)

variable {Url Origin : Type} [DecidableEq Origin] {U : Urls Url Origin} {digest : Bytes → Digest}
  {maxRedirects : ℕ}

/-! ### What probes and fetches call -/

/-- A call that is neither of the registry. -/
def HttpPort.isRequest : HttpPort Url → Prop
  | .request _ => True
  | _ => False

theorem sendFrom_within (binding : SourceBinding Url) (range : Option (ℕ × ℕ)) (ifRange : Option Bytes)
    (hops : ℕ) (url : Url) (credentials : Bool) :
    (sendFrom U binding range ifRange hops url credentials).run.Within HttpPort.isRequest
      fun _ ↦ True := by
  induction hops generalizing url credentials with
  | zero => exact trivial
  | succ hops ih =>
    unfold sendFrom
    split
    · exact trivial
    · refine ⟨trivial, fun (answer : Except TransportError (Response Url)) ↦ ?_⟩
      cases answer with
      | error error => exact trivial
      | ok response =>
        show Prog.Within _ _ (ExceptT.run (if (!isRedirect response.status) = true then _ else _))
        split
        · exact trivial
        · split
          · exact trivial
          · exact ih _ _

/-- What was probed can be asked for again, and its total is an offset. -/
structure Representation.Sane (r : Representation Url) : Prop where
  etag : HeaderMap.strongValidator [(.etag, r.etag)] = some r.etag
  total_le : r.total ≤ i64Max

/-- A registry in which every slot is sane. -/
def Sources.Sane (s : Sources Url) : Prop := ∀ source, ∀ r ∈ s.probed.lookup source, r.Sane

/-- What is remembered of a probe is sane. -/
def HttpPort.Careful : HttpPort Url → Prop
  | .insertProbed _ r => r.Sane
  | _ => True

theorem HeaderMap.strongValidator_alone {headers : HeaderMap} {etag : Bytes}
    (h : headers.strongValidator = some etag) :
    HeaderMap.strongValidator [(.etag, etag)] = some etag := by
  simp only [strongValidator, Option.bind_eq_bind, Option.bind_eq_some_iff] at h ⊢
  obtain ⟨value, hvalue, tag, htag, text, htext, heq⟩ := h
  cases heq
  exact ⟨etag, single_eq_some.2 ⟨rfl, (single_eq_some.1 hvalue).2⟩, tag, htag, text, htext, rfl⟩

theorem readProbe_eq_ok {response : Response Url} {total : ℕ} {etag : Option Bytes}
    (h : readProbe response = .ok (total, etag)) :
    total ≤ i64Max ∧ ∀ e ∈ etag, response.headers.strongValidator = some e := by
  unfold readProbe at h
  split at h
  · cases h
  · split at h
    · cases h
    · split at h
      · cases h
      · split at h
        · cases h
        next hle =>
          cases h
          refine ⟨not_lt.1 hle, fun e he ↦ ?_⟩
          split at he
          · exact he
          · cases he

theorem probe_within (source : SourceRef) : (probe U digest maxRedirects source).run.Within
    HttpPort.Careful fun _ ↦ True := by
  refine ⟨trivial, fun (binding : Option (SourceBinding Url)) ↦ ?_⟩
  cases binding with
  | none => exact trivial
  | some binding =>
    refine Prog.Within.bindExcept ((sendFrom_within binding (some (0, 1)) none (maxRedirects + 1)
      binding.url _).mono (fun op hop ↦ ?_) fun r _ ↦ ?_)
    · cases op <;> first | exact trivial | cases hop
    · cases r with
      | error error => exact trivial
      | ok response =>
        show Prog.Within _ _ ((MonadExcept.ofExcept (readProbe response) : HttpM Url _) >>= _).run
        cases hread : readProbe response with
        | error error => exact trivial
        | ok r =>
          obtain ⟨total, etag⟩ := r
          obtain ⟨hle, hetag⟩ := readProbe_eq_ok hread
          cases etag with
          | none => exact ⟨trivial, fun _ ↦ trivial⟩
          | some etag =>
            exact ⟨⟨HeaderMap.strongValidator_alone (hetag etag rfl), hle⟩, fun _ ↦ trivial⟩

/-- What a fetch returns passed its checks, against the slot it was given. -/
theorem fetchProbed_within (binding : SourceBinding Url) (range : ByteRange) (validator : Option Digest)
    (probed : Option (Representation Url)) :
    (fetchProbed U digest maxRedirects binding range validator probed).run.Within HttpPort.isRequest
      fun r ↦ ∀ response, r = .ok response → validator = probed.map (fun p ↦ digest p.etag) ∧
        (probed = none → range.start = 0) ∧ checkFetched probed range response = .ok response := by
  unfold fetchProbed
  split
  · exact fun _ h ↦ by cases h
  next hvalidator =>
    split
    · exact fun _ h ↦ by cases h
    next hstart =>
      refine Prog.Within.bindExcept ((sendFrom_within ..).mono (fun _ hop ↦ hop) fun r _ ↦ ?_)
      cases r with
      | error error => exact fun _ h ↦ by cases h
      | ok response =>
        show Prog.Within _ _ (MonadExcept.ofExcept (checkFetched probed range response) : HttpM Url _).run
        cases hcheck : checkFetched probed range response with
        | error error => exact fun _ h ↦ by cases h
        | ok response' =>
          have hsame : response' = response := by
            unfold checkFetched at hcheck
            dsimp only at hcheck
            split at hcheck
            · cases hcheck
            · split at hcheck
              · cases hcheck
              · split at hcheck <;> split at hcheck <;> cases hcheck <;> rfl
          rintro response'' h
          cases h
          rw [hsame]
          refine ⟨not_not.1 hvalidator, fun hnone ↦ ?_, hsame ▸ hcheck⟩
          rw [hnone] at hstart
          simpa using hstart

/-! ### The promise -/

/-- **What a fetch promises**: one plain response, which is a part of what the caller's probe reported, or
the whole of what was asked for. -/
def BoundTo (digest : Bytes → Digest) (range : ByteRange) (held : Probe) (response : Response Url) : Prop :=
  response.headers.representationIsPlain = true ∧
  match held.validator with
  | some validator => response.status = 206 ∧
    (∃ etag, response.headers.strongValidator = some etag ∧ digest etag = validator) ∧
    ∃ a b t, response.headers.single .contentRange =
        some (ascii "bytes " ++ (a ++ 45 :: b ++ 47 :: t)) ∧
      digits a = some range.start ∧ digits b = some (range.stop - 1) ∧ digits t = some held.total
  | none => range.start = 0 ∧ response.status = 200 ∧
    (response.headers.single .contentLength).bind digits = some range.len

/-- **The slot stands for what the caller holds**: under the caller's validator it has the caller's total,
or one that the range does not fit in. -/
def StandsFor (digest : Bytes → Digest) (range : ByteRange) (held : Probe)
    (slot : Option (Representation Url)) : Prop :=
  ∀ r ∈ slot, some (digest r.etag) = held.validator → r.total = held.total ∨ r.total < range.stop

theorem checkFetched_eq_ok {probed : Option (Representation Url)} {range : ByteRange}
    {response : Response Url} (h : checkFetched probed range response = .ok response) :
    response.headers.representationIsPlain = true ∧
    match probed with
    | some probed => response.status = 206 ∧ response.headers.strongValidator = some probed.etag ∧
      response.headers.contentRange range = some probed.total
    | none => response.status = 200 ∧
      (response.headers.single .contentLength).bind digits = some range.len := by
  unfold checkFetched at h
  dsimp only at h
  split at h
  · cases h
  next hstatus =>
    split at h
    · cases h
    next hplain =>
      refine ⟨by simpa using hplain, ?_⟩
      cases probed with
      | some probed =>
        dsimp only at h ⊢
        split at h
        · cases h
        next hagree =>
          simp only [not_or, not_not] at hagree
          exact ⟨hagree.1, hagree.2.1, hagree.2.2.1⟩
      | none =>
        dsimp only at h ⊢
        split at h
        · cases h
        next hagree =>
          rw [not_or, not_not] at hagree
          exact ⟨(not_not.1 hstatus).resolve_right hagree.1, hagree.2⟩

/-- A slot that stands for what the caller holds lets no other response through. -/
theorem StandsFor.boundTo {slot : Option (Representation Url)} {range : ByteRange} {held : Probe}
    {response : Response Url} (h : StandsFor digest range held slot)
    (hvalidator : held.validator = slot.map fun p ↦ digest p.etag) (hstart : slot = none → range.start = 0)
    (hcheck : checkFetched slot range response = .ok response) : BoundTo digest range held response := by
  obtain ⟨hplain, hrest⟩ := checkFetched_eq_ok hcheck
  refine ⟨hplain, ?_⟩
  rw [hvalidator]
  cases slot with
  | none => exact ⟨hstart rfl, hrest⟩
  | some r =>
    obtain ⟨hstatus, hetag, hrange⟩ := hrest
    obtain ⟨a, b, t, hsingle, ha, hb, ht, hle⟩ := HeaderMap.contentRange_eq_some.1 hrange
    have htotal : r.total = held.total := (h r rfl hvalidator.symm).resolve_right (not_lt.2 hle)
    exact ⟨hstatus, ⟨r.etag, hetag, rfl⟩, a, b, t, hsingle, ha, hb, htotal ▸ ht⟩

/-- What a server answers that keeps to the slot. -/
def answerFor (r : Representation Url) (range : ByteRange) : Response Url where
  status := 206
  headers := [(.etag, r.etag), (.contentRange,
    ascii "bytes " ++ (decimal range.start ++ 45 :: decimal (range.stop - 1) ++ 47 :: decimal r.total))]
  url := r.url

theorem single_answerFor {r : Representation Url} {range : ByteRange} (htotal : r.total ≤ i64Max) :
    (answerFor r range).headers.single .contentRange = some (ascii "bytes " ++
      (decimal range.start ++ 45 :: decimal (range.stop - 1) ++ 47 :: decimal r.total)) := by
  have hshort : ∀ n, n ≤ i64Max → (decimal n).length ≤ 20 := fun n hn ↦
    length_decimal_le n 20 (by decide) (by unfold i64Max at hn; omega)
  have hlt := range.start_lt
  have hstop := range.stop_le
  have hfirst := hshort range.start (by omega)
  have hlast := hshort (range.stop - 1) (by omega)
  have hall := hshort r.total htotal
  have hlabel : (ascii "bytes ").length = 6 := by decide +kernel
  refine HeaderMap.single_eq_some.2 ⟨rfl, ?_⟩
  simp only [List.length_append, List.length_cons, hlabel, maxField]
  omega

theorem word_of_offset {n : ℕ} (h : n ≤ i64Max) : n ≤ u64Max := by
  unfold i64Max at h
  unfold u64Max
  omega

/-- The server's answer passes every check against the slot. -/
theorem checkFetched_answerFor {r : Representation Url} {range : ByteRange} (hsane : r.Sane)
    (hle : range.stop ≤ r.total) :
    checkFetched (some r) range (answerFor r range) = .ok (answerFor r range) := by
  have hlt := range.start_lt
  have hstop := range.stop_le
  have hplain : (answerFor r range).headers.representationIsPlain = true := by
    simp [HeaderMap.representationIsPlain, HeaderMap.getAll, answerFor]
  have hetag : (answerFor r range).headers.strongValidator = some r.etag := hsane.etag
  have hlength : (answerFor r range).headers.single .contentLength = none := rfl
  have hrange : (answerFor r range).headers.contentRange range = some r.total :=
    HeaderMap.contentRange_eq_some.2 ⟨_, _, _, single_answerFor hsane.total_le,
      digits_decimal (word_of_offset (by omega)), digits_decimal (word_of_offset (by omega)),
      digits_decimal (word_of_offset hsane.total_le), hle⟩
  have hstatus : (answerFor r range).status = 206 := rfl
  simp [checkFetched, hplain, hetag, hlength, hrange, hstatus]

/-- It is not what the caller was promised, if the caller holds another total. -/
theorem not_boundTo_answerFor {r : Representation Url} {range : ByteRange} {held : Probe}
    (hsane : r.Sane) (hvalidator : some (digest r.etag) = held.validator) (hne : r.total ≠ held.total) :
    ¬BoundTo digest range held (answerFor r range) := by
  rintro ⟨-, hrest⟩
  rw [← hvalidator] at hrest
  obtain ⟨-, -, a, b, t, hsingle, ha, hb, ht⟩ := hrest
  rw [single_answerFor hsane.total_le, Option.some.injEq, List.append_cancel_left_eq] at hsingle
  -- no digit is a slash, so the text is cut in one way only
  have hcut : ∀ {x y z : Bytes}, (∀ c ∈ x, isDigit c = true) → (∀ c ∈ y, isDigit c = true) →
      splitOnce 47 (x ++ 45 :: y ++ 47 :: z) = some (x ++ 45 :: y, z) := by
    refine fun hx hy ↦ splitOnce_eq_some.2 ⟨rfl, fun hmem ↦ ?_⟩
    rcases List.mem_append.1 hmem with hmem | hmem
    · exact absurd (hx _ hmem) (by decide)
    · rcases List.mem_cons.1 hmem with heq | hmem
      · exact absurd heq (by decide)
      · exact absurd (hy _ hmem) (by decide)
  have hsame := hcut (z := decimal r.total) (isDigit_decimal range.start) (isDigit_decimal (range.stop - 1))
  rw [hsingle, hcut (digits_eq_some.1 ha).2.2.1 (digits_eq_some.1 hb).2.2.1, Option.some.injEq,
    Prod.mk.injEq] at hsame
  rw [hsame.2, digits_decimal (word_of_offset hsane.total_le)] at ht
  exact hne (Option.some.inj ht)

/-! ### Runs -/

variable (U digest maxRedirects)

/-- A transport nobody has called yet. -/
def idleTransport : Pool (Sources Url) HttpCall (HttpPort Url) (HttpAnswer Url) (HttpResult Url) :=
  ⟨Sources.empty, []⟩

/-- A fetch that is about to look up what was probed. -/
def lookingUp (binding : SourceBinding Url) (source : SourceRef) (range : ByteRange) (held : Probe) :
    Prog (HttpPort Url) (HttpAnswer Url) (HttpResult Url) :=
  .call (.probed source) fun probed ↦
    (Sum.inr <$> fetchProbed U digest maxRedirects binding range held.validator probed).run

/-- What is left of a fetch after its lookup, or without one. -/
def PastLookup (promise : Response Url → Prop) (p : Prog (HttpPort Url) (HttpAnswer Url) (HttpResult Url)) :
    Prop := p.Within HttpPort.isRequest fun r ↦ ∀ response, r = .ok (.inr response) → promise response

variable {U digest maxRedirects}

/-- **After its lookup** a fetch returns only what passes its checks. -/
theorem lookingUp_within (binding : SourceBinding Url) (range : ByteRange) (held : Probe)
    (slot : Option (Representation Url)) :
    PastLookup (fun response ↦ held.validator = slot.map (fun p ↦ digest p.etag) ∧
        (slot = none → range.start = 0) ∧ checkFetched slot range response = .ok response)
      (Sum.inr <$> fetchProbed U digest maxRedirects binding range held.validator slot :
        HttpM Url (Probe ⊕ Response Url)).run := by
  refine Prog.Within.bindExcept ((fetchProbed_within binding range held.validator slot).mono
    (fun _ hop ↦ hop) fun r hr ↦ ?_)
  cases r with
  | error error => exact fun _ h ↦ by cases h
  | ok response =>
    rintro response' h
    cases h
    exact hr response rfl

section Runs

abbrev HttpMove (Url : Type) := Process.Move HttpCall (Except TransportError (Response Url)) (Rebinding Url)

variable {moves : List (HttpMove Url)} {n : ℕ} {source : SourceRef} {range : ByteRange} {held : Probe}

/-- The transport after some moves. -/
abbrev transportAfter (U : Urls Url Origin) (digest : Bytes → Digest) (maxRedirects : ℕ)
    (moves : List (HttpMove Url)) := (httpSystem U digest maxRedirects).run idleTransport moves

theorem program_fetch : (httpSystem U digest maxRedirects).program (.fetch source range held) =
    .call (.binding source) fun binding : Option (SourceBinding Url) ↦
      match binding with
      | none => .done (.error (.fatal .policy))
      | some binding => lookingUp U digest maxRedirects binding source range held :=
  congrArg (Prog.call _) (funext fun binding ↦ by cases binding <;> rfl)

/-- A fetch that has started looks up its binding first. -/
theorem advance_fetch {P : Pool (Sources Url) HttpCall (HttpPort Url) (HttpAnswer Url) (HttpResult Url)}
    (hn : P.procs[n]? = some (.fetch source range held,
      (httpSystem U digest maxRedirects).program (.fetch source range held)))
    (answer : Except TransportError (Response Url)) :
    ((httpSystem U digest maxRedirects).step P (.advance n answer)).procs[n]? =
      some (.fetch source range held,
        match P.shared.bindings.lookup source with
        | none => .done (.error (.fatal .policy))
        | some binding => lookingUp U digest maxRedirects binding source range held) := by
  rw [program_fetch] at hn
  exact System.procs_advance hn answer

/-- **Where a fetch stands**: before its binding, before its lookup, or past it; and it is past its lookup
because it failed without one, or because it made it. -/
theorem stage_of_fetch {p : Prog (HttpPort Url) (HttpAnswer Url) (HttpResult Url)}
    (hn : (transportAfter U digest maxRedirects moves).procs[n]? = some (.fetch source range held, p)) :
    p = (httpSystem U digest maxRedirects).program (.fetch source range held) ∨
    (∃ binding, p = lookingUp U digest maxRedirects binding source range held) ∨
    PastLookup (fun _ ↦ False) p ∨
    PastLookup (fun _ ↦ True) p ∧ ∃ pre answer post binding, moves = pre ++ .advance n answer :: post ∧
      (transportAfter U digest maxRedirects pre).procs[n]? =
        some (.fetch source range held, lookingUp U digest maxRedirects binding source range held) := by
  induction moves using List.reverseRecOn generalizing p with
  | nil => simp [transportAfter, idleTransport] at hn
  | append_singleton moves move ih =>
    have hlonger : ∀ {pre post : List (HttpMove Url)} {answer}, moves = pre ++ .advance n answer :: post →
        moves ++ [move] = pre ++ .advance n answer :: (post ++ [move]) := by
      rintro pre post answer rfl
      simp
    rw [transportAfter, System.run_append] at hn
    by_cases hstarted : n < (transportAfter U digest maxRedirects moves).procs.length
    · obtain ⟨⟨call, q⟩, hq⟩ : ∃ e, (transportAfter U digest maxRedirects moves).procs[n]? = some e :=
        ⟨_, List.getElem?_eq_getElem hstarted⟩
      by_cases hmove : ∀ answer, move ≠ .advance n answer
      · -- somebody else moves
        have hkept := System.procs_step (S := httpSystem U digest maxRedirects) hq hmove
        rw [System.run_cons, System.run_nil] at hn
        rw [hkept] at hn
        cases hn
        rcases ih hq with h | h | h | ⟨h, pre, answer, post, binding, heq, hpre⟩
        · exact Or.inl h
        · exact Or.inr (Or.inl h)
        · exact Or.inr (Or.inr (Or.inl h))
        · exact Or.inr (Or.inr (Or.inr ⟨h, pre, answer, post ++ [move], binding, hlonger heq, hpre⟩))
      · obtain ⟨answer, hanswer⟩ := not_forall.1 hmove
        obtain rfl := not_not.1 hanswer
        rw [System.run_cons, System.run_nil] at hn
        have hname : call = .fetch source range held := by
          obtain ⟨q', hq', -⟩ := System.within_step (S := httpSystem U digest maxRedirects)
            (C := fun _ ↦ True) (Q := fun _ ↦ True) hq (Prog.within_trivial q) (.advance n answer)
          rw [hn] at hq'
          exact (Prod.mk.inj (Option.some.inj hq')).1.symm
        subst hname
        have hpast : ∀ {promise : Response Url → Prop}, PastLookup promise q → PastLookup promise p := by
          intro promise h
          obtain ⟨q', hq', hwithin⟩ := System.within_step (S := httpSystem U digest maxRedirects) hq h
            (.advance n answer)
          rw [hn] at hq'
          cases hq'
          exact hwithin
        rcases ih hq with rfl | ⟨binding, rfl⟩ | h | ⟨h, pre, answer', post, binding, heq, hpre⟩
        · rw [advance_fetch hq] at hn
          cases hbound : (transportAfter U digest maxRedirects moves).shared.bindings.lookup source with
          | none =>
            rw [hbound] at hn
            cases hn
            exact Or.inr (Or.inr (Or.inl fun response h ↦ by cases h))
          | some binding =>
            rw [hbound] at hn
            cases hn
            exact Or.inr (Or.inl ⟨binding, rfl⟩)
        · rw [lookingUp] at hq
          rw [System.procs_advance hq] at hn
          cases hn
          refine Or.inr (Or.inr (Or.inr ⟨?_, moves, answer, [], binding, rfl, hq⟩))
          exact (lookingUp_within binding range held _).mono (fun _ ↦ id) fun _ _ _ _ ↦ trivial
        · exact Or.inr (Or.inr (Or.inl (hpast h)))
        · exact Or.inr (Or.inr (Or.inr
            ⟨hpast h, pre, answer', post ++ [_], binding, hlonger heq, hpre⟩))
    · -- it was started by this move
      cases move with
      | start call =>
        rw [System.run_cons, System.run_nil, System.step,
          List.getElem?_append_right (not_lt.1 hstarted)] at hn
        obtain ⟨hlt, heq⟩ := List.getElem?_eq_some_iff.1 hn
        rw [List.getElem_singleton] at heq
        cases heq
        exact Or.inl rfl
      | disturb e => exact absurd (List.getElem?_eq_some_iff.1 hn).1 hstarted
      | advance m answer =>
        have hlength : ((httpSystem U digest maxRedirects).step
            (transportAfter U digest maxRedirects moves) (.advance m answer)).procs.length =
            (transportAfter U digest maxRedirects moves).procs.length := by
          simp only [System.step]
          split <;> simp
        have hlt := (List.getElem?_eq_some_iff.1 hn).1
        rw [System.run_cons, System.run_nil, hlength] at hlt
        exact absurd hlt hstarted

theorem Sources.Sane.remember {s : Sources Url} (hs : s.Sane) {r : Representation Url} (hr : r.Sane)
    (source : SourceRef) : Sources.Sane { s with probed := s.probed.insert source r } := by
  intro source' r' hr'
  by_cases heq : source' = source
  · subst heq
    have hlookup : (s.probed.insert source' r).lookup source' = some r := AList.lookup_insert _
    rw [show r' = r from Option.some.inj (Option.mem_def.1 hr' ▸ hlookup)]
    exact hr
  · exact hs source' r' ((AList.lookup_insert_ne heq) ▸ hr')

theorem Sources.Sane.forget {s : Sources Url} (hs : s.Sane) (source : SourceRef)
    (bindings : AList fun _ : SourceRef ↦ SourceBinding Url) :
    Sources.Sane ⟨bindings, s.probed.erase source⟩ := by
  intro source' r' hr'
  dsimp only at hr'
  by_cases heq : source' = source
  · subst heq
    rw [AList.lookup_erase] at hr'
    cases hr'
  · exact hs source' r' ((AList.lookup_erase_ne heq) ▸ hr')

/-- **The registry stays sane**, whoever calls. -/
theorem sane_transportAfter (moves : List (HttpMove Url)) :
    (transportAfter U digest maxRedirects moves).shared.Sane := by
  refine (System.kept_of_within (S := httpSystem U digest maxRedirects) (C := HttpPort.Careful)
    (Q := fun _ ↦ True) (fun call ↦ ?_) (fun _ s op answer hop hs ↦ ?_) (fun s e hs ↦ ?_) ?_ ?_ moves).1
  · cases call with
    | probe source =>
      refine Prog.Within.bindExcept ((probe_within source).mono (fun _ ↦ id) fun r _ ↦ ?_)
      cases r <;> exact trivial
    | fetch source range held =>
      rw [program_fetch]
      refine ⟨trivial, fun (binding : Option (SourceBinding Url)) ↦ ?_⟩
      cases binding with
      | none => exact trivial
      | some binding =>
        refine ⟨trivial, fun slot ↦ (lookingUp_within binding range held slot).mono (fun op hop ↦ ?_)
          fun _ _ ↦ trivial⟩
        cases op <;> first | exact trivial | cases hop
  · cases op with
    | insertProbed source r => exact hs.remember hop source
    | removeProbed source => exact hs.forget source s.bindings
    | _ => exact hs
  · cases e with
    | bind source binding =>
      show Sources.Sane (s.bind source binding).2
      unfold Sources.bind
      split <;> exact hs
    | unbind source => exact hs.forget source _
  · exact fun source r hr ↦ by cases hr
  · exact fun n x p hn ↦ by simp [idleTransport] at hn

theorem isHeaderValue_of_valid {value : Option Bytes} (h : value.all validCredential = true) :
    value.all isHeaderValue = true := by
  cases value with
  | none => rfl
  | some value =>
    simp only [Option.all_some, validCredential, Bool.not_eq_true', Bool.or_eq_false_iff,
      Bool.not_eq_false'] at h ⊢
    exact h.2

/-- After its lookup a fetch asks the server, and takes an answer that keeps to the slot. -/
theorem fetchProbed_serves (binding : SourceBinding Url) {r : Representation Url} (hsane : r.Sane)
    (hle : range.stop ≤ r.total) : ∃ request, ∃ next : Except TransportError (Response Url) → _,
      (Sum.inr <$> fetchProbed U digest maxRedirects binding range (some (digest r.etag)) (some r) :
        HttpM Url (Probe ⊕ Response Url)).run = .call (.request request) next ∧
      next (.ok (answerFor r range)) = .done (.ok (.inr (answerFor r range))) := by
  have hcredentials : ∀ credentials : Bool, ¬(credentials = true ∧
      ¬(binding.authorization.all isHeaderValue = true ∧ binding.cookie.all isHeaderValue = true)) :=
    fun _ h ↦ h.2 ⟨isHeaderValue_of_valid binding.credentials_valid.1,
      isHeaderValue_of_valid binding.credentials_valid.2⟩
  have hchecked : fetchProbed U digest maxRedirects binding range (some (digest r.etag)) (some r) = (do
      let response ← send U maxRedirects binding r.url (some (range.start, range.stop)) (some r.etag)
      MonadExcept.ofExcept (checkFetched (some r) range response)) := by
    have hsame : ¬(some (digest r.etag) ≠ (some r).map fun p ↦ digest p.etag) := not_not.2 rfl
    have hprobed : ¬((some r).isNone = true ∧ range.start ≠ 0) := fun h ↦ by cases h.1
    rw [fetchProbed, if_neg hsame, if_neg hprobed]
    rfl
  rw [hchecked, send, sendFrom, if_neg (hcredentials _)]
  refine ⟨_, _, rfl, ?_⟩
  show ExceptT.run (Sum.inr <$> (MonadExcept.ofExcept
    (checkFetched (some r) range (answerFor r range)) : HttpM Url _)) = _
  rw [checkFetched_answerFor hsane hle]
  rfl

/-- **What a fetch delivers** is what its caller was promised, whatever the server answers and whoever else
probes, binds or unbinds, exactly when the slot stands for what the caller holds at the moment the fetch
looks it up; and no fetch delivers anything without that lookup. -/
theorem fetch_boundTo (U : Urls Url Origin) (digest : Bytes → Digest) (maxRedirects : ℕ)
    (moves : List (HttpMove Url)) (n : ℕ) (source : SourceRef) (range : ByteRange) (held : Probe) :
    (∀ response, (transportAfter U digest maxRedirects moves).procs[n]? =
        some (.fetch source range held, .done (.ok (.inr response))) →
      ∃ pre answer post binding, moves = pre ++ .advance n answer :: post ∧
        (transportAfter U digest maxRedirects pre).procs[n]? =
          some (.fetch source range held, lookingUp U digest maxRedirects binding source range held)) ∧
    ∀ binding, (transportAfter U digest maxRedirects moves).procs[n]? =
        some (.fetch source range held, lookingUp U digest maxRedirects binding source range held) →
      ((∀ answer later response,
        (transportAfter U digest maxRedirects (moves ++ .advance n answer :: later)).procs[n]? =
          some (.fetch source range held, .done (.ok (.inr response))) →
        BoundTo digest range held response) ↔
      StandsFor digest range held
        ((transportAfter U digest maxRedirects moves).shared.probed.lookup source)) := by
  refine ⟨fun response hn ↦ ?_, fun binding hn ↦ ?_⟩
  · rcases stage_of_fetch hn with h | ⟨binding, h⟩ | h | ⟨-, h⟩
    · rw [program_fetch] at h
      cases h
    · cases h
    · exact (h response rfl).elim
    · exact h
  have hrun : ∀ answer later, transportAfter U digest maxRedirects (moves ++ .advance n answer :: later) =
      (httpSystem U digest maxRedirects).run ((httpSystem U digest maxRedirects).step
        (transportAfter U digest maxRedirects moves) (.advance n answer)) later :=
    fun answer later ↦ System.run_append ..
  have hstep := fun answer ↦
    System.procs_advance (S := httpSystem U digest maxRedirects) hn answer
  have hserve : ∀ (s : Sources Url) answer, ((httpSystem U digest maxRedirects).serve n s
      (.probed source) answer).1 = s.probed.lookup source := fun _ _ ↦ rfl
  simp only [hserve] at hstep
  have hsane := @sane_transportAfter _ _ _ U digest maxRedirects moves source
  generalize (transportAfter U digest maxRedirects moves).shared.probed.lookup source = slot at hstep hsane ⊢
  constructor
  · intro hall r hr hvalidator
    obtain rfl := Option.mem_def.1 hr
    by_contra hnot
    rw [not_or, not_lt] at hnot
    -- the server answers out of the slot, and not out of the caller's probe
    obtain ⟨request, next, hcall, hnext⟩ := @fetchProbed_serves _ _ _ U digest maxRedirects _
      binding r (hsane r hr) hnot.2
    refine not_boundTo_answerFor (hsane r hr) hvalidator hnot.1
      (hall (.error .transient) [.advance n (.ok (answerFor r range))] _ ?_)
    have hasking := hstep (.error .transient)
    rw [← hvalidator, hcall] at hasking
    rw [hrun, System.run_cons, System.run_nil, System.procs_advance hasking]
    exact congrArg (fun p ↦ some (HttpCall.fetch source range held, p)) hnext
  · intro hstands answer later response hdone
    obtain ⟨p, hp, hwithin⟩ := System.within_run (hstep answer) (lookingUp_within binding range held slot)
      later
    rw [hrun, hp] at hdone
    cases hdone
    obtain ⟨hvalidator, hstart, hcheck⟩ := hwithin response rfl
    exact hstands.boundTo hvalidator hstart hcheck

end Runs

/-! ### A later probe with another total -/

/-- A digest that tells short tags apart. -/
def Sample.tagDigest (etag : Bytes) : Digest := Vector.ofFn fun i ↦ etag.getD i 0

def Sample.source : SourceRef := ⟨1, Nat.one_ne_zero⟩

def Sample.binding : SourceBinding String := ⟨"https://a/f", none, none, false, [], by decide⟩

def Sample.representation (total : ℕ) : Representation String := ⟨ascii "\"v1\"", total, "https://a/f"⟩

/-- The range from two to six, of a source that was said to have ten bytes. -/
theorem Sample.two_lt_six : 2 < 6 := by decide

def Sample.range : ByteRange := ⟨2, 6, Sample.two_lt_six, six_le_i64Max⟩

def Sample.held : Probe := ⟨10, some (Sample.tagDigest (ascii "\"v1\""))⟩

/-- A probe, whose answer has this total. -/
def Sample.probing (n total : ℕ) : List (HttpMove String) :=
  [.start (.probe Sample.source), .advance n (.error .transient),
    .advance n (.ok (answerFor (Sample.representation total) ⟨0, 1, Nat.zero_lt_one, one_le_i64Max⟩)),
    .advance n (.error .transient)]

/-- A fetch, whose answer has this total. -/
def Sample.fetching (n total : ℕ) : List (HttpMove String) :=
  [.start (.fetch Sample.source Sample.range Sample.held), .advance n (.error .transient),
    .advance n (.error .transient),
    .advance n (.ok (answerFor (Sample.representation total) Sample.range))]

def Sample.bound : List (HttpMove String) := [.disturb (.bind Sample.source Sample.binding)]

/-- What a call has returned after some moves. -/
def Sample.returned (moves : List (HttpMove String)) (n : ℕ) :
    Option (HttpCall × Option (HttpResult String)) :=
  (transportAfter Sample.urls Sample.tagDigest 0 moves).procs[n]?.map fun e ↦ (e.1, e.2.result?)

theorem Sample.procs_of_returned {moves : List (HttpMove String)} {n : ℕ} {call : HttpCall}
    {result : HttpResult String} (h : Sample.returned moves n = some (call, some result)) :
    (transportAfter Sample.urls Sample.tagDigest 0 moves).procs[n]? = some (call, .done result) :=
  Prog.getElem?_of_result h

/-- A probe that is followed by its own fetch. -/
theorem fetch_boundTo_probe : Sample.returned (Sample.bound ++ Sample.probing 0 10 ++
      Sample.fetching 1 10) 1 = some (.fetch Sample.source Sample.range Sample.held,
        some (.ok (.inr (answerFor (Sample.representation 10) Sample.range)))) ∧
    BoundTo Sample.tagDigest Sample.range Sample.held
      (answerFor (Sample.representation 10) Sample.range) := by
  have hreturned : Sample.returned (Sample.bound ++ Sample.probing 0 10 ++ Sample.fetching 1 10) 1 =
      some (.fetch Sample.source Sample.range Sample.held,
        some (.ok (.inr (answerFor (Sample.representation 10) Sample.range)))) := by decide +kernel
  refine ⟨hreturned, ?_⟩
  have hlooking : (transportAfter Sample.urls Sample.tagDigest 0 (Sample.bound ++ Sample.probing 0 10 ++
      [.start (.fetch Sample.source Sample.range Sample.held), .advance 1 (.error .transient)])).procs[1]? =
      some (.fetch Sample.source Sample.range Sample.held,
        lookingUp Sample.urls Sample.tagDigest 0 Sample.binding Sample.source Sample.range Sample.held) := by
    rw [transportAfter, System.run_append, System.run_cons, System.run_cons, System.run_nil]
    have hlength : (transportAfter Sample.urls Sample.tagDigest 0
        (Sample.bound ++ Sample.probing 0 10)).procs.length = 1 := by decide +kernel
    have hbinding : (transportAfter Sample.urls Sample.tagDigest 0
        (Sample.bound ++ Sample.probing 0 10)).shared.bindings.lookup Sample.source =
          some Sample.binding := by decide +kernel
    have hstarted := System.procs_start (S := httpSystem Sample.urls Sample.tagDigest 0)
      (P := transportAfter Sample.urls Sample.tagDigest 0 (Sample.bound ++ Sample.probing 0 10))
      (.fetch Sample.source Sample.range Sample.held)
    rw [hlength] at hstarted
    have hbound := advance_fetch hstarted (.error .transient)
    rwa [show ∀ P (call : HttpCall), ((httpSystem Sample.urls Sample.tagDigest 0).step P
      (.start call)).shared = P.shared from fun _ _ ↦ rfl, hbinding] at hbound
  refine ((fetch_boundTo Sample.urls Sample.tagDigest 0 _ 1 Sample.source Sample.range Sample.held).2
    Sample.binding hlooking).2 ?_ (.error .transient)
      [.advance 1 (.ok (answerFor (Sample.representation 10) Sample.range))] _
      (Sample.procs_of_returned hreturned)
  have htotal : ((transportAfter Sample.urls Sample.tagDigest 0 (Sample.bound ++ Sample.probing 0 10 ++
      [.start (.fetch Sample.source Sample.range Sample.held),
        .advance 1 (.error .transient)])).shared.probed.lookup Sample.source).map (·.total) = some 10 := by
    decide +kernel
  rintro r hr -
  rw [Option.mem_def.1 hr] at htotal
  exact Or.inl (Option.some.inj htotal)

/-- **A later probe that reports another total under the same tag** changes what an earlier caller gets. -/
theorem not_fetch_boundTo : ¬∀ (U : Urls String String) (digest : Bytes → Digest) (maxRedirects : ℕ)
    (before after : List (HttpMove String)) (m : ℕ) (source : SourceRef) (range : ByteRange) (held : Probe)
    (response : Response String),
    (transportAfter U digest maxRedirects before).procs[m]? =
      some (.probe source, .done (.ok (.inl held))) →
    (transportAfter U digest maxRedirects (before ++ .start (.fetch source range held) :: after)).procs[
      (transportAfter U digest maxRedirects before).procs.length]? =
      some (.fetch source range held, .done (.ok (.inr response))) →
    BoundTo digest range held response := by
  intro h
  have hprobed : Sample.returned (Sample.bound ++ Sample.probing 0 10 ++ Sample.probing 1 11) 0 =
      some (.probe Sample.source, some (.ok (.inl Sample.held))) := by decide +kernel
  have hfetched : Sample.returned (Sample.bound ++ Sample.probing 0 10 ++ Sample.probing 1 11 ++
      Sample.fetching 2 11) 2 = some (.fetch Sample.source Sample.range Sample.held,
        some (.ok (.inr (answerFor (Sample.representation 11) Sample.range)))) := by decide +kernel
  have hsane : (Sample.representation 11).Sane := ⟨by decide +kernel, by decide⟩
  have hlength : (transportAfter Sample.urls Sample.tagDigest 0 (Sample.bound ++ Sample.probing 0 10 ++
      Sample.probing 1 11)).procs.length = 2 := by decide +kernel
  refine not_boundTo_answerFor hsane rfl (by decide) (h Sample.urls Sample.tagDigest 0 _
    (Sample.fetching 2 11).tail 0 Sample.source Sample.range Sample.held _
    (Sample.procs_of_returned hprobed) ?_)
  rw [hlength]
  exact Sample.procs_of_returned hfetched

end Fhd
