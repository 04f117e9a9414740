import FhdEngine.DownloadEngine.Options

/-!
# Pacing

`Bandwidth` of `crates/download-engine/src/rate.rs`: a budget that all transfers of a manager share, with a limit that may
change at any moment. A charge has the gate alone and waits as long as its bytes take at the limit it saw. If the limit
changes in between it starts over, so that nothing is accepted under a limit that is no longer in force.

While the limit stays as it is, what is accepted never gets ahead of it by more than the charge that was under way when
it was set (`bandwidth_bounded`).
-/

namespace Fhd.DownloadEngine

/-- What a charge waits under: the version of the limit it saw, the rate, and what the clock read. -/
structure Wait where
  version : ℕ
  rate : UInt64
  since : ℕ
deriving DecidableEq, Repr

/-- The charge that has the gate. -/
structure Charging where
  bytes : UInt32
  wait : Option Wait
deriving DecidableEq, Repr

structure Bandwidth where
  limit : Option UInt64
  /-- How often the limit has changed. -/
  version : ℕ
  gate : Option Charging
deriving DecidableEq, Repr

namespace Bandwidth

def new (limit : Option UInt64) : Except Error Bandwidth :=
  if !validLimit limit then .error .invalidOptions else .ok ⟨limit, 0, none⟩

def setLimit (b : Bandwidth) (limit : Option UInt64) : Except Error Bandwidth :=
  if !validLimit limit then .error .invalidOptions
  else if b.limit = limit then .ok b
  else .ok { b with limit := limit, version := b.version + 1 }

/-- How long these bytes take at this rate, in nanoseconds. -/
def delay (bytes : UInt32) (rate : UInt64) : ℕ := (bytes.toNat * 1000000000 + (rate.toNat - 1)) / rate.toNat

/-! ### The steps of a charge -/

inductive Act
  | setLimit (limit : Option UInt64)
  /-- A charge gets the gate. -/
  | enter (bytes : UInt32)
  /-- It looks at the limit, at first and when it has changed. -/
  | look
  /-- It has slept. -/
  | wake
  /-- It is cancelled. -/
  | cancel
deriving DecidableEq, Repr

/-- A budget, what the clock reads, and how many bytes were accepted. -/
structure Meter where
  bandwidth : Bandwidth
  now : ℕ
  accepted : ℕ
deriving DecidableEq, Repr

namespace Meter

/-- The charge is over. -/
def accept (m : Meter) (bytes : UInt32) : Meter :=
  { m with bandwidth := { m.bandwidth with gate := none }, accepted := m.accepted + bytes.toNat }

@[simp] theorem accept_accepted (m : Meter) (bytes : UInt32) :
    (m.accept bytes).accepted = m.accepted + bytes.toNat := rfl

def look (m : Meter) : Meter :=
  match m.bandwidth.gate with
  | none => m
  | some c =>
    if c.wait.any (·.version = m.bandwidth.version) then m
    else
      match m.bandwidth.limit with
      | none => m.accept c.bytes
      | some rate =>
        { m with bandwidth := { m.bandwidth with gate := some ⟨c.bytes, some ⟨m.bandwidth.version, rate, m.now⟩⟩ } }

def wake (m : Meter) : Meter :=
  match m.bandwidth.gate with
  | some ⟨bytes, some wait⟩ =>
    -- the select is biased: a change of the limit comes before the sleep
    if wait.version = m.bandwidth.version ∧ wait.since + delay bytes wait.rate ≤ m.now then m.accept bytes else m
  | _ => m

/-- One step, some time after the last one. Without the gate, or with nothing to wait for, nothing happens. -/
def step (m : Meter) (input : ℕ × Act) : Meter :=
  let m := { m with now := m.now + input.1 }
  match input.2 with
  | .setLimit limit => { m with bandwidth := ((m.bandwidth.setLimit limit).toOption).getD m.bandwidth }
  | .enter bytes =>
    if m.bandwidth.gate.isNone then { m with bandwidth := { m.bandwidth with gate := some ⟨bytes, none⟩ } } else m
  | .look => m.look
  | .wake => m.wake
  | .cancel => { m with bandwidth := { m.bandwidth with gate := none } }

def run (m : Meter) (inputs : List (ℕ × Act)) : Meter := inputs.foldl step m

/-- The bytes of the charge under way. -/
def underway (m : Meter) : ℕ := (m.bandwidth.gate.map (·.bytes.toNat)).getD 0

end Meter

/-! ### What a limit keeps -/

section Limits

variable {m m' : Meter} {rate : UInt64} {start base owed now : ℕ} {bytes : UInt32} {limit : Option UInt64}

theorem le_delay (bytes : UInt32) (hrate : 0 < rate.toNat) : bytes.toNat * 1000000000 ≤ rate.toNat * delay bytes rate := by
  have hdiv := Nat.div_add_mod (bytes.toNat * 1000000000 + (rate.toNat - 1)) rate.toNat
  have hmod := Nat.mod_lt (bytes.toNat * 1000000000 + (rate.toNat - 1)) hrate
  rw [delay]
  omega

/-- A charge never waits under a limit it has not seen. -/
structure Meter.Sound (m : Meter) : Prop where
  valid : validLimit m.bandwidth.limit
  wait : ∀ c ∈ m.bandwidth.gate, ∀ wait ∈ c.wait, wait.version ≤ m.bandwidth.version ∧
    (wait.version = m.bandwidth.version → m.bandwidth.limit = some wait.rate)

theorem setLimit_cases (b : Bandwidth) (limit : Option UInt64) :
    ((b.setLimit limit).toOption).getD b = b ∨ (validLimit limit ∧ b.limit ≠ limit ∧
      ((b.setLimit limit).toOption).getD b = { b with limit := limit, version := b.version + 1 }) := by
  unfold setLimit
  split
  next => exact .inl rfl
  next hvalid =>
    split
    next => exact .inl rfl
    next hne => exact .inr ⟨by simpa using hvalid, hne, rfl⟩

/-- What `look` can do. -/
theorem Meter.look_cases (m : Meter) : m.look = m ∨ ∃ c ∈ m.bandwidth.gate,
    (m.bandwidth.limit = none ∧ m.look = m.accept c.bytes) ∨ ∃ rate, m.bandwidth.limit = some rate ∧
      m.look = { m with bandwidth :=
        { m.bandwidth with gate := some ⟨c.bytes, some ⟨m.bandwidth.version, rate, m.now⟩⟩ } } := by
  unfold look
  split
  next => exact .inl rfl
  next c hgate =>
    split
    next => exact .inl rfl
    next =>
      split
      next hlimit => exact .inr ⟨c, hgate, .inl ⟨hlimit, rfl⟩⟩
      next rate hlimit => exact .inr ⟨c, hgate, .inr ⟨rate, hlimit, rfl⟩⟩

/-- What `wake` can do. -/
theorem Meter.wake_cases (m : Meter) : m.wake = m ∨ ∃ bytes wait, m.bandwidth.gate = some ⟨bytes, some wait⟩ ∧
    wait.version = m.bandwidth.version ∧ wait.since + delay bytes wait.rate ≤ m.now ∧ m.wake = m.accept bytes := by
  unfold wake
  split
  next bytes wait hgate =>
    split
    next hready => exact .inr ⟨bytes, wait, hgate, hready.1, hready.2, rfl⟩
    next => exact .inl rfl
  next => exact .inl rfl

theorem Meter.Sound.accept (h : m.Sound) : (m.accept bytes).Sound where
  valid := h.valid
  wait := by rintro _ ⟨⟩

theorem Meter.Sound.step (h : m.Sound) (input : ℕ × Act) : (m.step input).Sound := by
  obtain ⟨elapsed, act⟩ := input
  have hlater : Meter.Sound { m with now := m.now + elapsed } := ⟨h.valid, h.wait⟩
  cases act with
  | setLimit limit =>
    rcases setLimit_cases m.bandwidth limit with hsame | ⟨hvalid, -, hchanged⟩
    · simp only [Meter.step, hsame]
      exact hlater
    · simp only [Meter.step, hchanged]
      refine ⟨hvalid, fun c hc wait hwait ↦ ?_⟩
      have hle := (h.wait c hc wait hwait).1
      exact ⟨Nat.le_succ_of_le hle, fun heq ↦ absurd heq (Nat.ne_of_lt (Nat.lt_succ_of_le hle))⟩
  | enter bytes =>
    simp only [Meter.step]
    split
    next =>
      refine ⟨h.valid, ?_⟩
      rintro _ ⟨⟩ _ ⟨⟩
    next => exact hlater
  | look =>
    rcases Meter.look_cases { m with now := m.now + elapsed } with hsame | ⟨c, hc, ⟨-, hlook⟩ | ⟨rate, hlimit, hlook⟩⟩
    · simp only [Meter.step, hsame]
      exact hlater
    · simp only [Meter.step, hlook]
      exact hlater.accept
    · simp only [Meter.step, hlook]
      refine ⟨h.valid, ?_⟩
      rintro _ ⟨⟩ _ ⟨⟩
      exact ⟨Nat.le_refl _, fun _ ↦ hlimit⟩
  | wake =>
    rcases Meter.wake_cases { m with now := m.now + elapsed } with hsame | ⟨bytes, wait, -, -, -, hwake⟩
    · simp only [Meter.step, hsame]
      exact hlater
    · simp only [Meter.step, hwake]
      exact hlater.accept
  | cancel =>
    refine ⟨h.valid, ?_⟩
    rintro _ ⟨⟩

theorem Meter.Sound.run (h : m.Sound) (inputs : List (ℕ × Act)) : (m.run inputs).Sound := by
  induction inputs generalizing m with
  | nil => exact h
  | cons input inputs ih => exact ih (h.step input)

/-- What was accepted from `start` on, at this rate. Up to some moment it is paid for, and what the charge under way
brings is waited for from there, or is paid for as well. -/
structure Meter.Paced (rate : UInt64) (start base owed : ℕ) (m : Meter) : Prop where
  limit : m.bandwidth.limit = some rate
  grown : base ≤ m.accepted
  paid : ∃ upTo, start ≤ upTo ∧ upTo ≤ m.now ∧
    (m.accepted - base) * 1000000000 ≤ rate.toNat * (upTo - start) + owed * 1000000000 ∧
    ∀ c ∈ m.bandwidth.gate, ∀ wait ∈ c.wait, wait.version = m.bandwidth.version → upTo ≤ wait.since ∨
      (m.accepted - base + c.bytes.toNat) * 1000000000 ≤ rate.toNat * (upTo - start) + owed * 1000000000

theorem Meter.Paced.later (h : m.Paced rate start base owed) (hnow : m.now ≤ now) :
    Meter.Paced rate start base owed { m with now := now } := by
  obtain ⟨upTo, hstart, hupTo, hpaid, hwait⟩ := h.paid
  exact ⟨h.limit, h.grown, upTo, hstart, hupTo.trans hnow, hpaid, hwait⟩

/-- The gate is free again, and nothing was accepted. -/
theorem Meter.Paced.leave (h : m.Paced rate start base owed) {gate : Option Charging}
    (hgate : ∀ c ∈ gate, c.wait = none) :
    Meter.Paced rate start base owed { m with bandwidth := { m.bandwidth with gate := gate } } := by
  obtain ⟨upTo, hstart, hupTo, hpaid, -⟩ := h.paid
  refine ⟨h.limit, h.grown, upTo, hstart, hupTo, hpaid, fun c hc wait hwait ↦ ?_⟩
  rw [hgate c hc] at hwait
  cases hwait

/-- **A charge that has waited** is paid for. -/
theorem Meter.Paced.accept {wait : Wait} (h : m.Paced rate start base owed) (hrate : 0 < rate.toNat)
    (hgate : m.bandwidth.gate = some ⟨bytes, some wait⟩) (hversion : wait.version = m.bandwidth.version)
    (hslept : wait.since + delay bytes rate ≤ m.now) :
    (m.accept bytes).Paced rate start base owed := by
  obtain ⟨upTo, hstart, hupTo, hpaid, hunder⟩ := h.paid
  have hbase := h.grown
  have hmore : (m.accept bytes).accepted - base = m.accepted - base + bytes.toNat := by
    rw [Meter.accept_accepted]
    omega
  refine ⟨h.limit, Nat.le_add_right_of_le hbase, ?_⟩
  rcases hunder _ hgate _ rfl hversion with hsince | hcovered
  -- it began to wait when everything before was paid for
  · refine ⟨m.now, by omega, Nat.le_refl _, ?_, by rintro _ ⟨⟩⟩
    have hdelay := le_delay bytes hrate
    have htime : rate.toNat * (upTo - start) + rate.toNat * delay bytes rate ≤ rate.toNat * (m.now - start) := by
      rw [← Nat.mul_add]
      exact Nat.mul_le_mul_left _ (by omega)
    rw [hmore, Nat.add_mul]
    calc (m.accepted - base) * 1000000000 + bytes.toNat * 1000000000
        ≤ rate.toNat * (upTo - start) + owed * 1000000000 + rate.toNat * delay bytes rate := Nat.add_le_add hpaid hdelay
      _ = rate.toNat * (upTo - start) + rate.toNat * delay bytes rate + owed * 1000000000 := Nat.add_right_comm _ _ _
      _ ≤ rate.toNat * (m.now - start) + owed * 1000000000 := Nat.add_le_add_right htime _
  -- it was under way at the start
  · refine ⟨upTo, hstart, hupTo, ?_, by rintro _ ⟨⟩⟩
    rw [hmore]
    exact hcovered

theorem Meter.Paced.step (h : m.Paced rate start base owed) (hsound : m.Sound) (hrate : 0 < rate.toNat)
    {input : ℕ × Act} (hkeeps : ∀ limit, input.2 = .setLimit limit → limit = some rate) :
    (m.step input).Paced rate start base owed := by
  obtain ⟨elapsed, act⟩ := input
  have hlater := h.later (Nat.le_add_right m.now elapsed)
  cases act with
  | setLimit limit =>
    rcases setLimit_cases m.bandwidth limit with hsame | ⟨-, hne, -⟩
    · simp only [Meter.step, hsame]
      exact hlater
    · exact absurd (h.limit.trans (hkeeps limit rfl).symm) hne
  | enter bytes =>
    simp only [Meter.step]
    split
    next =>
      refine hlater.leave ?_
      rintro _ ⟨⟩
      rfl
    next => exact hlater
  | look =>
    rcases Meter.look_cases { m with now := m.now + elapsed } with hsame | ⟨c, hc, ⟨hnone, -⟩ | ⟨rate', hlimit, hlook⟩⟩
    · simp only [Meter.step, hsame]
      exact hlater
    · cases h.limit.symm.trans hnone
    · simp only [Meter.step, hlook]
      obtain ⟨upTo, hstart, hupTo, hpaid, -⟩ := hlater.paid
      refine ⟨h.limit, h.grown, upTo, hstart, hupTo, hpaid, ?_⟩
      -- the wait begins now
      rintro _ ⟨⟩ _ ⟨⟩ -
      exact .inl hupTo
  | wake =>
    rcases Meter.wake_cases { m with now := m.now + elapsed } with hsame | ⟨bytes, wait, hgate, hversion, hslept, hwake⟩
    · simp only [Meter.step, hsame]
      exact hlater
    · have hwait := (hsound.wait _ hgate _ rfl).2 hversion
      obtain rfl : wait.rate = rate := Option.some.inj (hwait.symm.trans h.limit)
      simp only [Meter.step, hwake]
      exact hlater.accept hrate hgate hversion hslept
  | cancel => exact hlater.leave (by rintro _ ⟨⟩)

theorem Meter.Paced.run (h : m.Paced rate start base owed) (hsound : m.Sound) (hrate : 0 < rate.toNat)
    {inputs : List (ℕ × Act)} (hkeeps : ∀ input ∈ inputs, ∀ limit, input.2 = .setLimit limit → limit = some rate) :
    (m.run inputs).Paced rate start base owed := by
  induction inputs generalizing m with
  | nil => exact h
  | cons input inputs ih =>
    have hstep := h.step hsound hrate (hkeeps input List.mem_cons_self)
    exact ih hstep (hsound.step input) fun input hmem ↦ hkeeps input (List.mem_cons_of_mem _ hmem)

/-- **A limit bounds what is accepted**: from whatever moment of whatever run, for as long as the limit stays as it is,
the bytes that are accepted take as long as the limit says, but for those of the charge that was under way. -/
theorem bandwidth_bounded {b : Bandwidth} (hnew : Bandwidth.new limit = .ok b) (inputs more : List (ℕ × Act))
    (hlimit : (Meter.run ⟨b, 0, 0⟩ inputs).bandwidth.limit = some rate)
    (hkeeps : ∀ input ∈ more, ∀ limit, input.2 = .setLimit limit → limit = some rate) :
    let m := Meter.run ⟨b, 0, 0⟩ inputs
    ((m.run more).accepted - m.accepted) * 1000000000 ≤
      rate.toNat * ((m.run more).now - m.now) + m.underway * 1000000000 := by
  intro m
  have hb : validLimit limit ∧ b = ⟨limit, 0, none⟩ := by
    unfold Bandwidth.new at hnew
    split at hnew
    next => cases hnew
    next hvalid => exact ⟨by simpa using hvalid, (Except.ok.inj hnew).symm⟩
  have hsound : m.Sound := by
    refine Meter.Sound.run ⟨?_, ?_⟩ inputs
    · rw [hb.2]
      exact hb.1
    · rw [hb.2]
      rintro _ ⟨⟩
  have hrate : 0 < rate.toNat := by
    have hvalid := hsound.valid
    rw [hlimit, validLimit, Option.all_some, decide_eq_true_iff] at hvalid
    exact hvalid.1
  have hpaced : m.Paced rate m.now m.accepted m.underway := by
    refine ⟨hlimit, Nat.le_refl _, m.now, Nat.le_refl _, Nat.le_refl _, by simp, fun c hc wait hwait _ ↦ .inr ?_⟩
    rw [Meter.underway, hc]
    simp
  obtain ⟨upTo, -, hupTo, hpaid, -⟩ := (hpaced.run hsound hrate hkeeps).paid
  refine hpaid.trans (Nat.add_le_add_right (Nat.mul_le_mul_left _ ?_) _)
  omega

end Limits

/-- Two charges of a hundred bytes each, at a thousand bytes a second. -/
theorem bandwidth_bounded_twice : ∃ m m' : Meter, m'.accepted - m.accepted = 200 ∧ m'.now - m.now = 200000000 ∧
    (m'.accepted - m.accepted) * 1000000000 ≤
      (1000 : UInt64).toNat * (m'.now - m.now) + m.underway * 1000000000 := by
  have hnew : Bandwidth.new (some 500) = .ok ⟨some 500, 0, none⟩ := rfl
  have hlimit : (Meter.run ⟨⟨some 500, 0, none⟩, 0, 0⟩
      [(0, .enter 100), (7, .look), (3, .setLimit (some 1000))]).bandwidth.limit = some 1000 := rfl
  have hbounded := bandwidth_bounded hnew _
    [(0, .look), (100000000, .wake), (0, .enter 100), (0, .look), (100000000, .wake)] hlimit (by simp)
  exact ⟨_, _, by decide +kernel, by decide +kernel, hbounded⟩

end Bandwidth

end Fhd.DownloadEngine
