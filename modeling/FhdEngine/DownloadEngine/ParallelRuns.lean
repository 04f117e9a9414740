import FhdEngine.DownloadEngine.Parallel
import FhdEngine.Library.Tiling

/-!
# What a transfer leaves in its store

A server that keeps its word: the body of a response that passed the checks of a range delivers the bytes
of one representation there, as far as it goes. Then the content of the store is a prefix of that
representation after every call of a transfer, with one connection or with many.
-/

namespace Fhd.DownloadEngine

open Process (Does Ensures Environment Prog Reaches Returns Routine)
open Tiling (Tiles)
open TransferStore (Identity StoreError)

/-! ### One range -/

section Range

variable {Url : Type} (asStr : Url → String) (sha256 : Bytes → Digest) (representation : Bytes)

/-- The network, for a task that fetches a range. -/
inductive Serves (f : Fetch) : Environment Unit NetPort (NetAnswer Url)
  | request {u : Unit} {start stop : ℕ} {etag : String} (answer : Except Error (Response Url × Body))
      (hserves : ∀ response body, answer = .ok (response, body) →
        f.check asStr sha256 start stop response = .ok true →
          body.bytes.take (stop - start) <+: representation.drop start) :
      Serves f u (.request start stop etag) answer u
  | cancelled {u : Unit} (answer : Bool) : Serves f u .cancelled answer u
  | limits {u : Unit} (answer : List ℕ) : Serves f u .limits answer u
  | pace {u : Unit} {bytes : ℕ} (answer : Except Error Unit) : Serves f u (.pace bytes) answer u

/-- What a task for this range may end with. -/
def Fetch.Ends (f : Fetch) (range : ℕ × ℕ) (r : Except Error (Option Bytes)) : Prop :=
  Returns (Serves asStr sha256 representation f) () ((f.range asStr sha256 range.1 range.2).run.run ()) (r, ()) ()

variable {asStr sha256 representation} {f : Fetch}

theorem sliceBytes_pos (limits : List ℕ) : 0 < sliceBytes limits := by
  unfold sliceBytes
  rcases hmin : (limits.map fun n ↦ max 1 (min (n / 10) maxSlice)).min? with _ | least
  · exact Nat.zero_lt_succ _
  · obtain ⟨n, -, rfl⟩ := List.mem_map.1 (List.min?_mem hmin)
    exact Nat.lt_of_lt_of_le Nat.zero_lt_one (Nat.le_max_left _ _)

theorem flatten_slices {n : ℕ} (hn : 0 < n) (bytes : Bytes) : (slices n bytes).flatten = bytes := by
  induction bytes using slices.induct n with
  | case1 bytes hnil =>
    rw [slices, if_pos hnil]
    exact (hnil.resolve_left hn.ne').symm
  | case2 bytes hsome ih =>
    rw [slices, if_neg hsome, List.flatten_cons, ih, List.take_append_drop]

/-- The bytes of a range. -/
def piece (representation : Bytes) (range : ℕ × ℕ) : Bytes :=
  (representation.drop range.1).take (range.2 - range.1)

theorem consume_does {bytes : ℕ} :
    Does (Serves asStr sha256 representation f) (fun _ ↦ True) () () (NetM.consume bytes : NetM Url Unit)
      (fun _ _ _ ↦ True) fun _ _ _ ↦ True := by
  unfold NetM.consume
  split
  next => exact Does.throw trivial
  next =>
    split
    next => exact Does.pure trivial
    next =>
      refine Does.ask fun paid _ _ ↦ ⟨trivial, ?_⟩
      rcases paid with e | _
      · exact Does.throw trivial
      · exact Does.pure trivial

theorem takeSlices_does (slices : List Bytes) (bytes : Bytes) :
    Does (Serves asStr sha256 representation f) (fun _ ↦ True) () () (NetM.takeSlices slices bytes : NetM Url Bytes)
      (fun taken _ _ ↦ taken = bytes ++ slices.flatten) fun _ _ _ ↦ True := by
  induction slices generalizing bytes with
  | nil => exact Does.pure (List.append_nil _).symm
  | cons slice slices ih =>
    refine Does.bind consume_does fun _ _ _ _ ↦ (ih (bytes ++ slice)).mono (fun taken _ _ htaken ↦ ?_) fun _ _ _ ↦ id
    rw [htaken, List.flatten_cons, List.append_assoc]

/-- **What is read of a body** is all of it, and of the right length. -/
theorem readBody_does (length : ℕ) (body : Body) (bytes : Bytes) :
    Does (Serves asStr sha256 representation f) (fun _ ↦ True) () () (NetM.readBody length body bytes : NetM Url Bytes)
      (fun read _ _ ↦ read = bytes ++ body.bytes ∧ read.length = length) fun _ _ _ ↦ True := by
  induction body generalizing bytes with
  | ended =>
    rw [NetM.readBody]
    refine Does.ask fun (cancelled : Bool) _ _ ↦ ⟨trivial, Does.when (fun _ ↦ trivial) fun _ ↦ ?_⟩
    dsimp only
    split
    next => exact Does.throw trivial
    next hlength => exact Does.pure ⟨(List.append_nil _).symm, not_not.1 hlength⟩
  | late =>
    rw [NetM.readBody]
    exact Does.ask fun (cancelled : Bool) _ _ ↦ ⟨trivial, Does.when (fun _ ↦ trivial) fun _ ↦ Does.throw trivial⟩
  | broken error =>
    rw [NetM.readBody]
    exact Does.ask fun (cancelled : Bool) _ _ ↦ ⟨trivial, Does.when (fun _ ↦ trivial) fun _ ↦ Does.throw trivial⟩
  | chunk chunk rest ih =>
    rw [NetM.readBody]
    refine Does.ask fun (cancelled : Bool) _ _ ↦ ⟨trivial, Does.when (fun _ ↦ trivial) fun _ ↦
      Does.when (fun _ ↦ trivial) fun _ ↦ Does.ask fun limits _ _ ↦ ⟨trivial, ?_⟩⟩
    refine Does.bind (takeSlices_does _ bytes) fun taken _ _ htaken ↦ ?_
    rw [flatten_slices (sliceBytes_pos limits)] at htaken
    refine (ih taken).mono (fun read _ _ hread ↦ ?_) fun _ _ _ ↦ id
    rw [htaken, List.append_assoc] at hread
    exact hread

/-- A response that passed the checks is read to exactly its range. -/
theorem range_does (start stop : ℕ) :
    Does (Serves asStr sha256 representation f) (fun _ ↦ True) () () (f.range asStr sha256 start stop)
      (fun r _ _ ↦ ∀ bytes ∈ r, bytes = piece representation (start, stop)) fun _ _ _ ↦ True := by
  unfold Fetch.range
  refine Does.ask fun answer _ hcall ↦ ⟨trivial, ?_⟩
  refine Does.ofExcept (fun _ _ ↦ trivial) fun reply hreply ↦ ?_
  obtain ⟨response, body⟩ := reply
  refine Does.ofExcept (fun _ _ ↦ trivial) fun checked hchecked ↦ ?_
  cases checked with
  | false => exact Does.pure nofun
  | true =>
    cases hcall with
    | request _ hserves =>
      refine Does.bind (readBody_does (stop - start) body []) fun read _ _ hread ↦ Does.pure ?_
      obtain ⟨hbytes, hlength⟩ := hread
      intro bytes hmem
      cases hmem
      have hfront := hserves response body hreply hchecked
      rw [List.nil_append] at hbytes
      rw [← hbytes, List.take_of_length_le hlength.le] at hfront
      rw [piece, ← hlength]
      exact List.prefix_iff_eq_take.1 hfront

/-- **What a task brings** is its piece of the representation. -/
theorem Fetch.Ends.eq_piece {range : ℕ × ℕ} {bytes : Bytes}
    (h : f.Ends asStr sha256 representation range (.ok (some bytes))) : bytes = piece representation range :=
  Ensures.returns (range_does range.1 range.2) h bytes rfl

end Range

/-! ### The store -/

/-- The content of the store, and what the transfer did for it. -/
structure Site where
  content : Bytes
  /-- Every window, with where the store ended when it was opened, newest first. -/
  windows : List (ℕ × List (ℕ × ℕ))
  /-- The content when the newest window was opened. -/
  opened : Bytes
  /-- The content when the first window was opened that failed. -/
  failed : Option Bytes
deriving DecidableEq, Repr

namespace Site

/-- A window is opened. -/
def openWindow (s : Site) (ranges : List (ℕ × ℕ)) : Site :=
  { s with windows := (s.content.length, ranges) :: s.windows, opened := s.content }

/-- A range of the newest window has come to this. -/
def settle {α : Type} (s : Site) (r : Except Error α) : Site :=
  match r with
  | .ok _ => s
  | .error _ => { s with failed := some (s.failed.getD s.opened) }

/-- **What is promised at every moment**: the content is a front of the representation, every window tiled what
came next, and nothing was appended since one failed. -/
structure Right (representation : Bytes) (s : Site) : Prop where
  content : s.content <+: representation
  windows : ∀ w ∈ s.windows, w.2 ≠ [] ∧ ∃ stop ≤ representation.length, Tiles Prod.fst Prod.snd w.1 w.2 stop
  failed : ∀ content ∈ s.failed, s.content = content

end Site

section Transfer

variable {Url : Type} (asStr : Url → String) (sha256 : Bytes → Digest) (representation : Bytes)

/-- The world of a transfer: any order of its tasks, any failure, and a failed write may be partial. -/
inductive Transfers : Environment Site TransferPort TransferAnswer
  | isCancelled {s : Site} (answer : Bool) : Transfers s .isCancelled answer s
  | limits {s : Site} (answer : List ℕ) : Transfers s .limits answer s
  | pace {s : Site} {bytes : ℕ} (answer : Except Error Unit) : Transfers s (.pace bytes) answer s
  | range {s : Site} {f : Fetch} {range : ℕ × ℕ} (answer : Except Error (Option Bytes))
      (hends : f.Ends asStr sha256 representation range answer) :
      Transfers s (.range f range) answer ((s.openWindow [range]).settle answer)
  | spawn {s : Site} {f : Fetch} {ranges : List (ℕ × ℕ)} : Transfers s (.spawn f ranges) () (s.openWindow ranges)
  | join {s : Site} {f : Fetch} {running : List ((ℕ × ℕ) × ℕ)} (task : { task // task ∈ running })
      (answer : Option (Except Error (Option Bytes)))
      (hends : ∀ r ∈ answer, f.Ends asStr sha256 representation task.1.1 r) :
      Transfers s (.join f running) (task, answer) (s.settle (TransferM.outcome answer))
  | append {s : Site} {bytes : Bytes} (done : Option (Except StoreError Unit)) (written : Bytes)
      (hwritten : written <+: bytes) (hdone : done = some (.ok ()) → written = bytes) :
      Transfers s (.append bytes) done { s with content := s.content ++ written }
  | checkpoint {s : Site} (done : Option (Except StoreError Unit)) : Transfers s .checkpoint done s
  | report {s : Site} {committed : ℕ} : Transfers s (.report committed) () s
  | complete {s : Site} (done : Option (Except StoreError Path)) : Transfers s .complete done s

/-- The store holds the first bytes of the representation, and the transfer knows how many. -/
structure Level (identity : Identity) (n : ℕ) (h : Handle) (s : Site) : Prop where
  right : s.Right representation
  content : s.content = representation.take n
  le : n ≤ representation.length
  len : h.len = n
  identity_eq : h.identity = identity
  failed : s.failed = none

variable {asStr sha256 representation} {identity : Identity} {n : ℕ} {h : Handle} {s : Site}

/-- What the transfer does in its world, as long as it keeps what is promised. -/
abbrev Runs {α : Type} (asStr : Url → String) (sha256 : Bytes → Digest) (representation : Bytes) (h : Handle)
    (s : Site) (x : TransferM α) (Q : α → Handle → Site → Prop) : Prop :=
  Does (Transfers asStr sha256 representation) (Site.Right representation) h s x Q fun _ _ _ ↦ True

theorem checkpoint_runs {Q : Unit → Handle → Site → Prop} (hright : s.Right representation)
    (hQ : Q () { h with committed := h.len } s) :
    Runs asStr sha256 representation h s TransferM.checkpoint Q := by
  refine Does.ask fun done s' hcall ↦ ?_
  cases hcall
  exact ⟨hright, Does.ofExcept (fun _ _ ↦ trivial) fun _ _ ↦ hQ⟩

theorem report_runs {Q : Unit → Handle → Site → Prop} (hright : s.Right representation) (hQ : Q () h s) :
    Runs asStr sha256 representation h s TransferM.report Q := by
  refine Does.get fun s s' hcall ↦ ?_
  cases hcall
  exact ⟨hright, hQ⟩

theorem giveUp_runs (hright : s.Right representation) {error : Error} {Q : Unit → Handle → Site → Prop} :
    Runs asStr sha256 representation h s (TransferM.giveUp error) Q := by
  refine Does.bind (checkpoint_runs hright (Q := fun _ _ s ↦ s.Right representation) hright) fun _ _ _ hright ↦ ?_
  refine Does.bind (report_runs hright (Q := fun _ _ _ ↦ True) trivial) fun _ _ _ _ ↦ ?_
  exact Does.throw trivial

/-- What comes next in the representation. -/
theorem take_append {bytes : Bytes} (h : bytes <+: representation.drop n) :
    representation.take n ++ bytes = representation.take (n + bytes.length) := by
  rw [List.take_add, ← List.prefix_iff_eq_take.1 h]

theorem add_length_le {bytes : Bytes} (hn : n ≤ representation.length) (h : bytes <+: representation.drop n) :
    n + bytes.length ≤ representation.length := by
  have := h.length_le
  rw [List.length_drop] at this
  omega

/-- **One write.** -/
theorem store_runs {bytes : Bytes} (hlevel : Level representation identity n h s)
    (hnext : bytes <+: representation.drop n) :
    Runs asStr sha256 representation h s (TransferM.store bytes)
      fun _ h s ↦ Level representation identity (n + bytes.length) h s := by
  refine Does.get (Does.failIf (fun _ ↦ trivial) fun _ ↦ Does.ask fun done s' hcall ↦ ?_)
  cases hcall with
  | append _ written hwritten hdone =>
    have hcontent : s.content ++ written = representation.take (n + written.length) := by
      rw [hlevel.content, take_append (hwritten.trans hnext)]
    have hright : Site.Right representation { s with content := s.content ++ written } :=
      { content := by
          show s.content ++ written <+: representation
          rw [hcontent]
          exact List.take_prefix _ _
        windows := hlevel.right.windows
        failed := by
          show ∀ content ∈ s.failed, _
          rw [hlevel.failed]
          nofun }
    refine ⟨hright, Does.ofExcept (fun _ _ ↦ trivial) fun _ hok ↦ ?_⟩
    have hsuccess : done = some (.ok ()) := by
      rcases done with _ | _ | _
      · cases hok
      · cases hok
      · rfl
    obtain rfl := hdone hsuccess
    exact ⟨hright, hcontent, add_length_le hlevel.le hnext, congrArg (· + written.length) hlevel.len, hlevel.identity_eq,
      hlevel.failed⟩

theorem storeAndReport_runs {threshold : ℕ} {bytes : Bytes} (hlevel : Level representation identity n h s)
    (hnext : bytes <+: representation.drop n) :
    Runs asStr sha256 representation h s (TransferM.storeAndReport threshold bytes)
      fun _ h s ↦ Level representation identity (n + bytes.length) h s := by
  refine Does.bind (store_runs hlevel hnext) fun _ h s hlevel ↦ Does.get ?_
  have hreport : ∀ h s, Level representation identity (n + bytes.length) h s →
      Runs asStr sha256 representation h s
        (do let h ← get; if h.len = h.committed then TransferM.report)
        fun _ h s ↦ Level representation identity (n + bytes.length) h s := by
    intro h s hlevel
    refine Does.get ?_
    split
    next => exact report_runs hlevel.right hlevel
    next => exact Does.pure hlevel
  split
  next =>
    refine Does.bind (checkpoint_runs (Q := fun _ ↦ Level representation identity (n + bytes.length)) hlevel.right
      ⟨hlevel.right, hlevel.content, hlevel.le, hlevel.len, hlevel.identity_eq, hlevel.failed⟩) fun _ h s hlevel ↦ ?_
    exact hreport h s hlevel
  next => exact hreport h s hlevel

/-- A cancellation commits and ends the transfer. -/
theorem unlessCancelled_runs {α : Type} {error : Error} {next : Unit → TransferM α} {Q : α → Handle → Site → Prop}
    (hright : s.Right representation) (hnext : Runs asStr sha256 representation h s (next ()) Q) :
    Runs asStr sha256 representation h s
      (TransferM.isCancelled >>= fun cancelled ↦
        if cancelled = true then TransferM.giveUp error >>= next else next ()) Q := by
  refine Does.ask fun cancelled s' hcall ↦ ?_
  cases hcall
  refine ⟨hright, ?_⟩
  split
  next => exact Does.bind (giveUp_runs hright (Q := fun _ _ _ ↦ False)) nofun
  next => exact hnext

theorem append_runs {threshold : ℕ} {bytes : Bytes} (hlevel : Level representation identity n h s)
    (hnext : bytes <+: representation.drop n) :
    Runs asStr sha256 representation h s (TransferM.append threshold bytes)
      fun _ h s ↦ Level representation identity (n + bytes.length) h s :=
  unlessCancelled_runs hlevel.right (storeAndReport_runs hlevel hnext)

/-! ### Windows -/

/-- The bytes of a range that starts where the store ends. -/
theorem piece_prefix {range : ℕ × ℕ} (hstart : range.1 = n) : piece representation range <+: representation.drop n := by
  rw [piece, hstart]
  exact List.take_prefix _ _

theorem length_piece {range : ℕ × ℕ} (hlt : range.1 < range.2) (hle : range.2 ≤ representation.length) :
    range.1 + (piece representation range).length = range.2 := by
  rw [piece, List.length_take, List.length_drop]
  omega

/-- **The pieces of a window**, one after another. -/
theorem appendAll_runs {threshold stop : ℕ} {results : List (ℕ × Bytes)} {ranges : List (ℕ × ℕ)}
    (hresults : results.map Prod.snd = ranges.map (piece representation))
    (htiles : Tiles Prod.fst Prod.snd n ranges stop) (hstop : stop ≤ representation.length)
    (hlevel : Level representation identity n h s) :
    Runs asStr sha256 representation h s (TransferM.appendAll threshold results)
      fun _ h s ↦ Level representation identity stop h s := by
  induction ranges generalizing results n h s with
  | nil =>
    obtain rfl := List.map_eq_nil_iff.1 hresults
    obtain rfl : n = stop := htiles
    exact Does.pure hlevel
  | cons range ranges ih =>
    cases results with
    | nil => cases hresults
    | cons result results =>
      obtain ⟨hpiece, hrest⟩ := List.cons.inj hresults
      obtain ⟨hstart, hlt, htiles⟩ := htiles
      have hle : range.2 ≤ representation.length := htiles.le.trans hstop
      have hbytes : result.2 = piece representation range := hpiece
      have hlength : n + result.2.length = range.2 := by rw [hbytes, ← hstart, length_piece hlt hle]
      refine Does.bind (append_runs hlevel (hbytes ▸ piece_prefix hstart)) fun _ h s hlevel ↦ ?_
      rw [hlength] at hlevel
      exact ih hrest htiles hlevel

/-- The newest window was opened at this content. -/
theorem Level.settle (hlevel : Level representation identity n h s) (hopened : s.opened = s.content)
    {α : Type} (r : Except Error α) : (s.settle r).Right representation ∧
      (∀ a, r = .ok a → Level representation identity n h (s.settle r) ∧ (s.settle r).opened = (s.settle r).content) := by
  cases r with
  | ok a => exact ⟨hlevel.right, fun _ _ ↦ ⟨hlevel, hopened⟩⟩
  | error e =>
    refine ⟨⟨hlevel.right.content, hlevel.right.windows, ?_⟩, nofun⟩
    intro content hcontent
    have hfailed : (s.settle (.error e : Except Error α)).failed = some (s.failed.getD s.opened) := rfl
    rw [hfailed, hlevel.failed, Option.mem_def, Option.some.injEq] at hcontent
    rw [← hcontent]
    exact hopened.symm

/-- A task that ended well has brought its piece. -/
theorem eq_piece_of_outcome {f : Fetch} {range : ℕ × ℕ} {answer : Option (Except Error (Option Bytes))}
    {bytes : Bytes} (hends : ∀ r ∈ answer, f.Ends asStr sha256 representation range r)
    (h : TransferM.outcome answer = .ok bytes) : bytes = piece representation range := by
  rcases answer with _ | _ | _ | brought
  · cases h
  · cases h
  · cases h
  · cases h
    exact (hends _ rfl).eq_piece

/-- What a task brings, under its index. -/
def brings (representation : Bytes) (task : (ℕ × ℕ) × ℕ) : ℕ × Bytes := (task.2, piece representation task.1)

/-- **The tasks of a window** bring their pieces in any order. -/
theorem joinAll_runs {f : Fetch} {running : List ((ℕ × ℕ) × ℕ)} {results : List (ℕ × Bytes)}
    (hlevel : Level representation identity n h s) (hopened : s.opened = s.content) :
    Runs asStr sha256 representation h s (TransferM.joinAll f running results) fun all h s ↦
      Level representation identity n h s ∧ all.Perm (results ++ running.map (brings representation)) := by
  induction hcount : running.length generalizing running results h s with
  | zero =>
    obtain rfl := List.length_eq_zero_iff.1 hcount
    rw [TransferM.joinAll, if_pos rfl]
    exact Does.pure ⟨hlevel, by simp⟩
  | succ count ih =>
    rw [TransferM.joinAll, if_neg (by rintro rfl; cases hcount)]
    refine Does.ask fun ended s' hcall ↦ ?_
    cases hcall with
    | join task answer hends =>
      obtain ⟨hright, hok⟩ := hlevel.settle hopened (TransferM.outcome answer)
      refine ⟨hright, ?_⟩
      cases houtcome : TransferM.outcome answer with
      | error e => exact Does.bind (giveUp_runs (houtcome ▸ hright) (Q := fun _ _ _ ↦ False)) nofun
      | ok bytes =>
        obtain ⟨hlevel', hopened'⟩ := hok bytes houtcome
        rw [houtcome] at hlevel' hopened'
        refine (ih hlevel' hopened' ?_).mono (fun all h s hall ↦ ⟨hall.1, hall.2.trans ?_⟩) fun _ _ _ ↦ id
        · rw [List.length_erase_of_mem task.2, hcount]
          rfl
        · -- the task goes from the running ones to the results
          have hbrings : (task.1.2, bytes) = brings representation task.1 := by
            rw [brings, eq_piece_of_outcome hends houtcome]
          rw [hbrings, List.append_assoc]
          refine List.Perm.append_left results ?_
          exact ((List.perm_cons_erase task.2).map (brings representation)).symm

/-- In the order of their indices the results are the pieces of the window in order. -/
theorem mergeSort_results {ranges : List (ℕ × ℕ)} {results : List (ℕ × Bytes)}
    (h : results.Perm (ranges.zipIdx.map (brings representation))) :
    (results.mergeSort (·.1 ≤ ·.1)).map Prod.snd = ranges.map (piece representation) := by
  have hindex : ((ranges.zipIdx.map (brings representation)).map Prod.fst).Pairwise (· < ·) := by
    rw [List.map_map, show Prod.fst ∘ brings representation = Prod.snd from rfl, List.zipIdx_map_snd]
    exact List.pairwise_lt_range'
  have hascending : (ranges.zipIdx.map (brings representation)).Pairwise fun a b ↦ a.1 < b.1 :=
    List.pairwise_map.1 hindex
  have hsorted : (results.mergeSort (·.1 ≤ ·.1)).Pairwise fun a b ↦ a.1 ≤ b.1 := by
    refine (List.pairwise_mergeSort (fun a b c hab hbc ↦ ?_) (fun a b ↦ ?_) results).imp of_decide_eq_true
    · exact decide_eq_true ((of_decide_eq_true hab).trans (of_decide_eq_true hbc))
    · simpa using le_total a.1 b.1
  have heq : results.mergeSort (·.1 ≤ ·.1) = ranges.zipIdx.map (brings representation) := by
    have hperm := (List.mergeSort_perm results (·.1 ≤ ·.1)).trans h
    refine List.Perm.eq_of_pairwise (fun a b ha hb hab hba ↦ ?_) hsorted (hascending.imp le_of_lt) hperm
    exact List.inj_on_of_nodup_map (List.Pairwise.imp ne_of_lt hindex) (hperm.mem_iff.1 ha) hb (le_antisymm hab hba)
  rw [heq, List.map_map, show Prod.snd ∘ brings representation = piece representation ∘ Prod.fst from rfl,
    ← List.map_map, List.zipIdx_map_fst]

theorem rangeEnd_le {total offset : ℕ} (h : offset ≤ total) : rangeEnd total offset ≤ total := by
  rw [rangeEnd]
  omega

/-- **A window** tiles what comes next. -/
theorem tiles_window {total offset : ℕ} (connections : ℕ) (h : offset ≤ total) :
    Tiles Prod.fst Prod.snd offset (window total connections offset) (windowEnd total connections offset) ∧
      windowEnd total connections offset ≤ total := by
  induction connections generalizing offset with
  | zero => exact ⟨rfl, h⟩
  | succ connections ih =>
    rw [window, windowEnd]
    split
    next => exact ⟨rfl, h⟩
    next hne =>
      obtain ⟨htiles, hle⟩ := ih (rangeEnd_le h)
      exact ⟨⟨rfl, lt_rangeEnd (Nat.lt_of_le_of_ne h hne), htiles⟩, hle⟩

theorem window_ne_nil {total connections offset : ℕ} (h : offset < total) (hconnections : 0 < connections) :
    window total connections offset ≠ [] := by
  cases connections with
  | zero => omega
  | succ connections =>
    rw [window, if_neg h.ne]
    exact List.cons_ne_nil _ _

/-- A window is opened where the store ends. -/
theorem Level.openWindow (hlevel : Level representation identity n h s) {ranges : List (ℕ × ℕ)} {stop : ℕ}
    (hne : ranges ≠ []) (htiles : Tiles Prod.fst Prod.snd n ranges stop) (hstop : stop ≤ representation.length) :
    Level representation identity n h (s.openWindow ranges) := by
  have hlength : s.content.length = n := by
    rw [hlevel.content, List.length_take, Nat.min_eq_left hlevel.le]
  refine ⟨⟨hlevel.right.content, ?_, hlevel.right.failed⟩, hlevel.content, hlevel.le, hlevel.len, hlevel.identity_eq,
    hlevel.failed⟩
  intro w hw
  rcases List.mem_cons.1 hw with rfl | hw
  · exact ⟨hne, stop, hstop, hlength ▸ htiles⟩
  · exact hlevel.right.windows w hw

/-- **Window after window**, to the end. -/
theorem windowsFrom_runs {plan : Plan} {f : Fetch} {offset : ℕ} (htotal : f.total = representation.length)
    (hlevel : Level representation identity offset h s) :
    Runs asStr sha256 representation h s (windowsFrom plan f offset)
      fun _ h s ↦ Level representation identity representation.length h s := by
  induction hrest : f.total - offset using Nat.strong_induction_on generalizing offset h s with
  | _ rest ih =>
    rw [windowsFrom]
    have hle := hlevel.le
    split
    next hlt =>
      obtain ⟨htiles, hstop⟩ := tiles_window plan.connections hlt.le
      have hopen := hlevel.openWindow (window_ne_nil hlt plan.connections_pos) htiles (htotal ▸ hstop)
      refine Does.ask fun _ s' hcall ↦ ?_
      cases hcall
      refine ⟨hopen.right, ?_⟩
      refine Does.bind (joinAll_runs hopen rfl) fun results h s hresults ↦ ?_
      obtain ⟨hlevel, hperm⟩ := hresults
      refine Does.bind (appendAll_runs (mergeSort_results hperm) htiles (htotal ▸ hstop) hlevel) fun _ h s hlevel ↦ ?_
      have hless := lt_windowEnd hlt plan.connections_pos
      exact ih _ (by omega) hlevel rfl
    next hge =>
      obtain rfl : offset = representation.length := by omega
      exact Does.pure hlevel

/-- **The transfer over several connections.** -/
theorem transfer_runs {plan : Plan} {response : Body} (htotal : identity.total = representation.length)
    (hn : n < representation.length) (hlevel : Level representation identity n h s) :
    Runs asStr sha256 representation h s (transfer plan response) fun r h s ↦
      r = some response ∧ Level representation identity n h s ∨
        r = none ∧ Level representation identity representation.length h s := by
  unfold transfer
  refine Does.get ?_
  split
  next => exact Does.throw trivial
  next etag hetag =>
    have htotal' : h.identity.total = representation.length := by rw [hlevel.identity_eq, htotal]
    have hend : rangeEnd h.identity.total h.len ≤ representation.length := by
      rw [htotal', hlevel.len]
      exact rangeEnd_le hn.le
    have htiles : Tiles Prod.fst Prod.snd n [(h.len, rangeEnd h.identity.total h.len)]
        (rangeEnd h.identity.total h.len) := by
      refine ⟨hlevel.len, ?_, rfl⟩
      rw [htotal', hlevel.len]
      exact lt_rangeEnd hn
    have hopen := hlevel.openWindow (List.cons_ne_nil _ _) htiles hend
    refine Does.ask fun answer s' hcall ↦ ?_
    cases hcall with
    | range _ hends =>
      obtain ⟨hright, hok⟩ := hopen.settle rfl answer
      refine ⟨hright, Does.ofExcept (fun _ _ ↦ trivial) fun brought hbrought ↦ ?_⟩
      obtain ⟨hlevel', -⟩ := hok brought hbrought
      subst hbrought
      cases brought with
      | none => exact Does.pure (Or.inl ⟨rfl, hlevel'⟩)
      | some bytes =>
        have hbytes := hends.eq_piece
        have hlength : n + bytes.length = rangeEnd h.identity.total h.len := by
          rw [hbytes, ← hlevel.len]
          exact length_piece htiles.2.1 hend
        refine Does.bind (append_runs hlevel' (hbytes ▸ piece_prefix hlevel.len)) fun _ h' s hlevel ↦ ?_
        rw [hlength] at hlevel
        refine Does.bind (windowsFrom_runs htotal' hlevel) fun _ h s hlevel ↦ ?_
        exact Does.pure (Or.inr ⟨rfl, hlevel⟩)

/-! ### The sequential tail -/

/-- A body delivers what comes after the start, as far as it goes. -/
def Delivers (representation : Bytes) (start : ℕ) (body : Body) : Prop :=
  body.bytes.take (representation.length - start) <+: representation.drop start

/-- A server that sends all of the rest delivers it. -/
theorem delivers_rest (representation : Bytes) (start : ℕ) :
    Delivers representation start (.chunk (representation.drop start) .ended) := by
  show (representation.drop start ++ []).take _ <+: _
  rw [List.append_nil]
  exact List.take_prefix _ _

theorem Delivers.chunk {chunk : Bytes} {rest : Body} (hdelivers : Delivers representation n (.chunk chunk rest))
    (hle : n + chunk.length ≤ representation.length) :
    chunk <+: representation.drop n ∧ Delivers representation (n + chunk.length) rest := by
  have hall : (chunk ++ rest.bytes).take (representation.length - n) =
      chunk ++ rest.bytes.take (representation.length - (n + chunk.length)) := by
    rw [List.take_append, List.take_of_length_le (by omega), Nat.sub_add_eq]
  have hfront : chunk ++ rest.bytes.take (representation.length - (n + chunk.length)) <+: representation.drop n :=
    hall ▸ hdelivers
  obtain ⟨after, hafter⟩ := hfront
  refine ⟨⟨_, (List.append_assoc ..).symm.trans hafter⟩, after, ?_⟩
  rw [← List.drop_drop, ← hafter, List.append_assoc, List.drop_left]

theorem consume_runs {bytes : ℕ} {Q : Except Error Unit → Handle → Site → Prop} (hright : s.Right representation)
    (hQ : ∀ paid, Q paid h s) : Runs asStr sha256 representation h s (TransferM.consume bytes) Q := by
  by_cases hlarge : bytes > maxSlice
  · rw [show (TransferM.consume bytes) = pure (.error .invalidOptions) from if_pos hlarge]
    exact Does.pure (hQ _)
  · by_cases hzero : bytes = 0
    · rw [show (TransferM.consume bytes) = pure (.ok ()) from (if_neg hlarge).trans (if_pos hzero)]
      exact Does.pure (hQ _)
    · rw [show (TransferM.consume bytes) = Routine.ask (TransferPort.pace bytes) from
        (if_neg hlarge).trans (if_neg hzero)]
      intro paid s' hcall
      cases hcall
      exact ⟨hright, hQ paid⟩

theorem storeSlices_runs {plan : Plan} {slices : List Bytes} (hlevel : Level representation identity n h s)
    (hnext : slices.flatten <+: representation.drop n) :
    Runs asStr sha256 representation h s (storeSlices plan slices)
      fun _ h s ↦ Level representation identity (n + slices.flatten.length) h s := by
  induction slices generalizing n h s with
  | nil => exact Does.pure hlevel
  | cons slice slices ih =>
    rw [List.flatten_cons] at hnext ⊢
    obtain ⟨after, hafter⟩ := hnext
    have hslice : slice <+: representation.drop n := ⟨_, (List.append_assoc ..).symm.trans hafter⟩
    have hrest : slices.flatten <+: representation.drop (n + slice.length) := by
      refine ⟨after, ?_⟩
      rw [← List.drop_drop, ← hafter, List.append_assoc, List.drop_left]
    refine Does.bind (consume_runs (Q := fun _ h' s' ↦ h' = h ∧ s' = s) hlevel.right fun _ ↦ ⟨rfl, rfl⟩) ?_
    rintro paid _ _ ⟨rfl, rfl⟩
    cases paid with
    | error error => exact giveUp_runs hlevel.right
    | ok _ =>
      refine unlessCancelled_runs hlevel.right ?_
      refine Does.bind (storeAndReport_runs hlevel hslice) fun _ h s hlevel ↦ ?_
      rw [List.length_append, ← Nat.add_assoc]
      exact ih hlevel hrest

/-- **The original response** leaves as much as it has brought. -/
theorem drain_runs {plan : Plan} {body : Body} (hlevel : Level representation identity n h s)
    (hdelivers : Delivers representation n body) :
    Runs asStr sha256 representation h s (drain plan representation.length n body)
      fun received h s ↦ Level representation identity received h s := by
  induction body generalizing n h s with
  | ended =>
    rw [drain]
    exact unlessCancelled_runs hlevel.right (Does.pure hlevel)
  | late =>
    rw [drain]
    exact unlessCancelled_runs hlevel.right (Does.bind (giveUp_runs hlevel.right (Q := fun _ _ _ ↦ False)) nofun)
  | broken error =>
    rw [drain]
    exact unlessCancelled_runs hlevel.right (Does.bind (giveUp_runs hlevel.right (Q := fun _ _ _ ↦ False)) nofun)
  | chunk chunk rest ih =>
    rw [drain]
    refine unlessCancelled_runs hlevel.right ?_
    split
    next => exact Does.throw trivial
    next received hreceived =>
      obtain ⟨-, rfl⟩ := checkedAdd_eq_some.1 hreceived
      refine Does.when (fun _ ↦ trivial) fun hfits ↦ ?_
      obtain ⟨hchunk, hrest⟩ := hdelivers.chunk (not_lt.1 hfits)
      refine Does.ask fun limits s' hcall ↦ ?_
      cases hcall
      have hflatten : (slices (sliceBytes limits) chunk).flatten = chunk := flatten_slices (sliceBytes_pos limits) chunk
      refine ⟨hlevel.right, ?_⟩
      refine Does.bind (storeSlices_runs hlevel (hflatten.symm ▸ hchunk)) fun _ h s hlevel ↦ ?_
      rw [hflatten] at hlevel
      exact ih hlevel hrest

/-- What is checked once the body is read. -/
theorem finish_runs {start received : ℕ} (htotal : identity.total = representation.length)
    (hlevel : Level representation identity received h s) :
    Runs asStr sha256 representation h s
      (do
        if received ≠ identity.total then throw .bodyLength
        if ← TransferM.isCancelled then TransferM.giveUp .cancelled
        let done : Option (Except StoreError Path) ← Routine.ask TransferPort.complete
        let path ← MonadExcept.ofExcept (disk done)
        return (⟨identity.total, start, path⟩ : Outcome))
      fun _ _ s ↦ s.content = representation := by
  refine Does.when (fun _ ↦ trivial) fun hwhole ↦ ?_
  refine unlessCancelled_runs hlevel.right ?_
  refine Does.ask fun done s' hcall ↦ ?_
  cases hcall
  refine ⟨hlevel.right, Does.ofExcept (fun _ _ ↦ trivial) fun path _ ↦ Does.pure ?_⟩
  rw [hlevel.content, not_not.1 hwhole, htotal, List.take_length]

/-- **A download that succeeds** has stored the whole representation. -/
theorem finishDownload_runs {plan : Plan} {response : Body} (htotal : identity.total = representation.length)
    (hlevel : Level representation identity n h s) (hdelivers : Delivers representation n response) :
    Runs asStr sha256 representation h s (finishDownload plan n response)
      fun _ _ s ↦ s.content = representation := by
  unfold finishDownload
  refine Does.get ?_
  rw [hlevel.identity_eq]
  dsimp only
  have hdrain : ∀ {received : ℕ} {h : Handle} {s : Site}, Level representation identity received h s →
      Delivers representation received response →
      Runs asStr sha256 representation h s (drain plan identity.total received response)
        fun received h s ↦ Level representation identity received h s := by
    intro received h s hlevel hdelivers
    rw [htotal]
    exact drain_runs hlevel hdelivers
  split
  next hparallel =>
    have hn : n < representation.length := by
      rw [htotal, rangeBytes] at hparallel
      omega
    refine Does.bind (transfer_runs htotal hn hlevel) fun r h s hr ↦ Does.get ?_
    rcases hr with ⟨rfl, hlevel⟩ | ⟨rfl, hlevel⟩
    · refine Does.pure_bind ?_
      rw [hlevel.len]
      exact Does.bind (hdrain hlevel hdelivers) fun _ h s hlevel ↦ finish_runs htotal hlevel
    · refine Does.pure_bind (Does.pure_bind ?_)
      rw [hlevel.len]
      exact finish_runs htotal hlevel
  next =>
    refine Does.pure_bind ?_
    exact Does.bind (hdrain hlevel hdelivers) fun _ h s hlevel ↦ finish_runs htotal hlevel

end Transfer

/-- A store with this content, before the transfer has begun. -/
def Site.ofContent (content : Bytes) : Site := ⟨content, [], content, none⟩

theorem level_ofContent {representation : Bytes} {identity : Identity} {start committed : ℕ}
    (hle : start ≤ representation.length) : Level representation identity start ⟨identity, start, committed⟩
      (Site.ofContent (representation.take start)) where
  right := ⟨List.take_prefix _ _, nofun, nofun⟩
  content := rfl
  le := hle
  len := rfl
  identity_eq := rfl
  failed := rfl

/-- **A transfer over several connections** keeps its store a front of the representation after every call, opens
every window where the store ends and appends nothing of one in which a range failed. When the download succeeds the
store holds the whole representation, with however many connections. -/
theorem parallel_transfer {Url : Type} (asStr : Url → String) (sha256 : Bytes → Digest) (representation : Bytes)
    (identity : Identity) (plan : Plan) (start committed : ℕ) (response : Body)
    (htotal : identity.total = representation.length) (hstart : start ≤ representation.length)
    (hdelivers : Delivers representation start response) :
    (∀ s p, Reaches (Transfers asStr sha256 representation) (Site.ofContent (representation.take start))
        ((finishDownload plan start response).run.run ⟨identity, start, committed⟩) s p → s.Right representation) ∧
      ∀ outcome h s, Returns (Transfers asStr sha256 representation) (Site.ofContent (representation.take start))
        ((finishDownload plan start response).run.run ⟨identity, start, committed⟩) (.ok outcome, h) s →
          s.content = representation := by
  have hlevel : Level representation identity start ⟨identity, start, committed⟩ _ := level_ofContent hstart
  have hruns := @finishDownload_runs _ asStr sha256 _ _ _ _ _ plan _ htotal hlevel hdelivers
  refine ⟨fun s p hreaches ↦ (Ensures.reaches hruns hreaches hlevel.right).1, fun outcome h s hreturns ↦ ?_⟩
  have hpost := (show Ensures _ _ _ _ _ from hruns).returns hreturns
  exact hpost

/-- A file of more than one window. -/
def largeFile : Bytes := List.replicate 1500000 7

def largeIdentity : Identity := ⟨Vector.replicate 32 0, Vector.replicate 32 0, some "\"v\"", 1500000, none⟩

/-- Four connections for two windows, over a server that would have sent everything at once. -/
theorem parallel_transfer_large : largeIdentity.total = largeFile.length ∧ ∀ outcome h s,
    Returns (Transfers id (fun _ ↦ Vector.replicate 32 0) largeFile) (Site.ofContent [])
      ((finishDownload ⟨4, 1048576, by decide⟩ 0 (.chunk largeFile .ended)).run.run ⟨largeIdentity, 0, 0⟩)
      (.ok outcome, h) s → s.content = largeFile :=
  ⟨List.length_replicate.symm, (parallel_transfer id (fun _ ↦ Vector.replicate 32 0) largeFile largeIdentity
    ⟨4, 1048576, by decide⟩ 0 0 _ List.length_replicate.symm (Nat.zero_le _) (delivers_rest _ _)).2⟩

end Fhd.DownloadEngine
