import Experimint.Lib.Fifo
import Experimint.Threshold.Driver

/-!
# A party on a thread of its own

The loop runs on a dedicated thread; its calls of the exchange cross to the async side over two
channels of capacity one.  The thread puts its payload into the request channel and then waits for
the round on the response channel.  The async side pulls the payload, has the round serviced and
submits it, with any amount of time in between.

* `ProtocolHandle` — the thread with its channels, and what has crossed them.
* `Aligned` — the invariant: payloads and rounds cross in order, one call at a time.
* `pump_parks` — round `k` submitted is what call `k` returns, and the thread waits for it.
* `drive_refines` — a party driven to its end from the async side is one that calls the service
  directly.
-/

set_option autoImplicit false

namespace Experimint.ThresholdEcdsa

/-! ## The thread and its channels -/

/-- What one round is answered with. -/
abbrev RoundResult : Type := Except String (List Bytes)

/-- Where the thread is in a call: at the request channel, or at the response channel. -/
inductive ThreadCall where
  | sending (ours : Bytes)
  | receiving
deriving DecidableEq

structure ProtocolHandle (σ O M : Type) where
  node : Node σ O M
  call : Option ThreadCall
  req : Option Bytes
  resp : Option RoundResult
  /-- Payloads pulled so far. -/
  taken : List Bytes
  /-- Rounds submitted so far. -/
  submitted : List RoundResult
  /-- What the calls have returned so far. -/
  results : List RoundResult

section Handle

variable {S : Suite} {σ O M : Type}

def spawnProtocol (sm : σ) : ProtocolHandle σ O M where
  node := ⟨⟨sm, none, .empty, [], 0, 0⟩, .running, [], 0⟩
  call := none
  req := none
  resp := none
  taken := []
  submitted := []
  results := []

/-- A pass that reaches the exchange starts with the request. -/
def threadCall (v : Node σ O M) : Option ThreadCall := v.ours.map .sending

/-- The rest of a pass, with what the exchange returned. -/
def Node.exchanged (g : Group S σ O M) (i : PartyIndex) (v : Node σ O M) (weSentSomething : Bool) :
    RoundResult → Obs M × Node σ O M
  | .ok all => v.collect g i weSentSomething all
  | .error _ => (.ended, { v with phase := .returned (.error "round exchange") })

/-- One step of the thread; `none` while it waits. -/
def ProtocolHandle.thread (g : Group S σ O M) (i : PartyIndex) (rand : SealRandomness S)
    (h : ProtocolHandle σ O M) : Option (Obs M × ProtocolHandle σ O M) :=
  match h.node.phase, h.call with
  | .running, _ =>
    let (obs, v) := h.node.advance g i rand
    some (obs, { h with node := v, call := threadCall v })
  | .exchanging _, some (.sending ours) =>
    match h.req with
    | none => some (.quiet, { h with req := some ours, call := some .receiving })
    | some _ => none
  | .exchanging weSentSomething, some .receiving =>
    match h.resp with
    | none => none
    | some result =>
      let (obs, v) := h.node.exchanged g i weSentSomething result
      some (obs, { h with
        node := v
        call := none
        resp := none
        results := h.results ++ [result] })
  | _, _ => none

/-- `None` once the thread is back and the channel is empty; waits otherwise. -/
def ProtocolHandle.nextOutgoing (h : ProtocolHandle σ O M) :
    Option (Option Bytes × ProtocolHandle σ O M) :=
  match h.req with
  | some payload => some (some payload, { h with req := none, taken := h.taken ++ [payload] })
  | none =>
    match h.node.phase with
    | .returned _ => some (none, h)
    | _ => none

/-- Sends a round to the thread, and waits while the one before is still in the channel. -/
def ProtocolHandle.respond (h : ProtocolHandle σ O M) (result : RoundResult) :
    Option (Except String (ProtocolHandle σ O M)) :=
  match h.node.phase with
  | .returned _ =>
    some (.error ("protocol thread stopped listening before this round's payloads were submitted " ++
      "(it likely already finished or errored out)"))
  | _ =>
    match h.resp with
    | some _ => none
    | none => some (.ok { h with resp := some result, submitted := h.submitted ++ [result] })

def ProtocolHandle.submitRound (h : ProtocolHandle σ O M) (allPayloads : List Bytes) :
    Option (Except String (ProtocolHandle σ O M)) :=
  h.respond (.ok allPayloads)

def ProtocolHandle.intoOutput (h : ProtocolHandle σ O M) : Option (Except String O) :=
  match h.node.phase with
  | .returned result => some result
  | _ => none

/-! ## Alignment -/

def ThreadCall.unsent : ThreadCall → Option Bytes
  | .sending ours => some ours
  | .receiving => none

/-- What is where between the two sides. -/
structure Aligned (h : ProtocolHandle σ O M) : Prop where
  posted : h.node.posted = h.taken ++ h.req.toList ++ (h.call.bind ThreadCall.unsent).toList
  answered : h.submitted = h.results ++ h.resp.toList
  exchanging : ∀ w, h.node.phase = .exchanging w →
    (∃ c, h.call = some c) ∧ h.node.posted.length = h.results.length + 1
  back : (∀ w, h.node.phase ≠ .exchanging w) →
    h.call = none ∧ h.node.posted.length = h.results.length

theorem aligned_spawn (sm : σ) : Aligned (spawnProtocol sm : ProtocolHandle σ O M) where
  posted := rfl
  answered := rfl
  exchanging w h := by cases h
  back _ := ⟨rfl, rfl⟩

variable {g : Group S σ O M} {i : PartyIndex} {rand : SealRandomness S}
  {h h' : ProtocolHandle σ O M} {o : Obs M}

/-- The steps of the thread. -/
inductive Threaded (g : Group S σ O M) (i : PartyIndex) (rand : SealRandomness S)
    (h : ProtocolHandle σ O M) : Obs M → ProtocolHandle σ O M → Prop
  | advance {o : Obs M} {v : Node σ O M} (hphase : h.node.phase = .running)
      (hstep : h.node.advance g i rand = (o, v)) :
      Threaded g i rand h o { h with node := v, call := threadCall v }
  | request {w : Bool} {ours : Bytes} (hphase : h.node.phase = .exchanging w)
      (hcall : h.call = some (.sending ours)) (hroom : h.req = none) :
      Threaded g i rand h .quiet { h with req := some ours, call := some .receiving }
  | resumed {w : Bool} {result : RoundResult} {o : Obs M} {v : Node σ O M}
      (hphase : h.node.phase = .exchanging w) (hcall : h.call = some .receiving)
      (hresp : h.resp = some result) (hstep : h.node.exchanged g i w result = (o, v)) :
      Threaded g i rand h o { h with
        node := v
        call := none
        resp := none
        results := h.results ++ [result] }

theorem threaded_of_thread (hstep : h.thread g i rand = some (o, h')) :
    Threaded g i rand h o h' := by
  unfold ProtocolHandle.thread at hstep
  split at hstep
  · rename_i hphase
    cases hstep
    exact .advance hphase rfl
  · rename_i w ours hphase hcall
    split at hstep
    · rename_i hroom
      cases hstep
      exact .request hphase hcall hroom
    · cases hstep
  · rename_i w hphase hcall
    split at hstep
    · cases hstep
    · rename_i result hresp
      cases hstep
      exact .resumed hphase hcall hresp rfl
  · cases hstep

/-- What comes back from the exchange leaves the payloads alone and ends the call. -/
theorem exchanged_cases {v v' : Node σ O M} {w : Bool} {result : RoundResult}
    (hstep : v.exchanged g i w result = (o, v')) :
    v'.posted = v.posted ∧ ∀ w, v'.phase ≠ .exchanging w := by
  cases result with
  | error e =>
    cases hstep
    exact ⟨rfl, fun w hw => by cases hw⟩
  | ok all =>
    obtain ⟨hposted, ⟨r, hr⟩ | ⟨hrun, -⟩⟩ := collect_cases hstep
    · exact ⟨hposted, fun w hw => by cases hr.symm.trans hw⟩
    · exact ⟨hposted, fun w hw => by cases hrun.symm.trans hw⟩

/-- **The thread keeps the alignment.** -/
theorem Aligned.thread (ha : Aligned h) (hstep : Threaded g i rand h o h') : Aligned h' := by
  cases hstep with
  | @advance o v hphase hadv =>
    obtain ⟨hnone, hlen⟩ := ha.back fun w hw => by cases hphase.symm.trans hw
    have hposted := ha.posted
    rw [hnone] at hposted
    obtain ⟨-, ⟨hsame, hno, hours⟩ | ⟨payload, w, hmore, hw, hours⟩⟩ :=
      (advanced_of_advance hadv).calls hphase
    · have hcall : threadCall v = none := by rw [threadCall, hours]; rfl
      refine ⟨?_, ha.answered, fun w hw => absurd hw (hno w), fun _ => ⟨hcall, ?_⟩⟩
      · simp only [hcall, hsame, hposted]
      · simp only [hsame, hlen]
    · have hcall : threadCall v = some (.sending payload) := by rw [threadCall, hours]; rfl
      refine ⟨?_, ha.answered, fun _ _ => ⟨⟨_, hcall⟩, ?_⟩, fun hno => absurd hw (hno w)⟩
      · simp only [hcall, hmore, hposted]
        simp [ThreadCall.unsent]
      · simp only [hmore, List.length_append, List.length_singleton, hlen]
  | @request w ours hphase hcall hroom =>
    have hposted := ha.posted
    rw [hcall, hroom] at hposted
    refine ⟨?_, ha.answered, fun w hw => ⟨⟨_, rfl⟩, (ha.exchanging w hw).2⟩,
      fun hno => absurd hphase (hno w)⟩
    simpa [ThreadCall.unsent] using hposted
  | @resumed w result o v hphase hcall hresp hexchanged =>
    obtain ⟨hsame, hno⟩ := exchanged_cases hexchanged
    have hposted := ha.posted
    have hanswered := ha.answered
    rw [hcall] at hposted
    rw [hresp] at hanswered
    refine ⟨?_, ?_, fun w hw => absurd hw (hno w), fun _ => ⟨rfl, ?_⟩⟩
    · simp only [hsame, hposted]
      rfl
    · simpa using hanswered
    · simp only [hsame, List.length_append, List.length_singleton]
      exact (ha.exchanging w hphase).2

/-- Payloads of the loop are only added to. -/
theorem Threaded.posted (hstep : Threaded g i rand h o h') : h.node.posted <+: h'.node.posted := by
  cases hstep with
  | @advance o v hphase hadv =>
    obtain ⟨-, ⟨hsame, -, -⟩ | ⟨payload, w, hmore, -, -⟩⟩ :=
      (advanced_of_advance hadv).calls hphase
    · exact hsame.symm ▸ List.prefix_rfl
    · exact hmore.symm ▸ List.prefix_append _ _
  | request => exact List.prefix_rfl
  | resumed hphase hcall hresp hexchanged =>
    exact (exchanged_cases hexchanged).1.symm ▸ List.prefix_rfl

/-- Pulling finds a payload, or the thread back. -/
theorem nextOutgoing_cases {out : Option Bytes} (hstep : h.nextOutgoing = some (out, h')) :
    (∃ payload, out = some payload ∧ h.req = some payload ∧
      h' = { h with req := none, taken := h.taken ++ [payload] }) ∨
      out = none ∧ h' = h ∧ ∃ r, h.node.phase = .returned r := by
  unfold ProtocolHandle.nextOutgoing at hstep
  split at hstep
  · rename_i payload hreq
    cases hstep
    exact .inl ⟨payload, rfl, hreq, rfl⟩
  · split at hstep
    · rename_i r hphase
      cases hstep
      exact .inr ⟨rfl, rfl, r, hphase⟩
    · cases hstep

/-- A round is taken by a thread that is not back and has no round waiting. -/
theorem respond_eq_ok {result : RoundResult} (hstep : h.respond result = some (.ok h')) :
    (∀ r, h.node.phase ≠ .returned r) ∧ h.resp = none ∧
      h' = { h with resp := some result, submitted := h.submitted ++ [result] } := by
  unfold ProtocolHandle.respond at hstep
  split at hstep
  · cases hstep
  · rename_i hphase
    split at hstep
    · cases hstep
    · rename_i hresp
      cases hstep
      exact ⟨hphase, hresp, rfl⟩

/-- **So does a payload pulled from it.** -/
theorem Aligned.nextOutgoing (ha : Aligned h) {out : Option Bytes}
    (hstep : h.nextOutgoing = some (out, h')) : Aligned h' := by
  rcases nextOutgoing_cases hstep with ⟨payload, -, hreq, rfl⟩ | ⟨-, rfl, -⟩
  · have hposted := ha.posted
    rw [hreq] at hposted
    refine ⟨?_, ha.answered, ha.exchanging, ha.back⟩
    simpa using hposted
  · exact ha

/-- **And a round submitted to it.** -/
theorem Aligned.respond (ha : Aligned h) {result : RoundResult}
    (hstep : h.respond result = some (.ok h')) : Aligned h' := by
  obtain ⟨-, hresp, rfl⟩ := respond_eq_ok hstep
  have hanswered := ha.answered
  rw [hresp] at hanswered
  refine ⟨ha.posted, ?_, ha.exchanging, ha.back⟩
  simpa using hanswered

/-! ## The suspendable pump -/

inductive PumpAction (S : Suite) where
  | thread (rand : SealRandomness S)
  | nextOutgoing
  | submitRound (allPayloads : List Bytes)

def pumpStep (g : Group S σ O M) (i : PartyIndex) (h : ProtocolHandle σ O M) :
    PumpAction S → Option (Obs M × ProtocolHandle σ O M)
  | .thread rand => h.thread g i rand
  | .nextOutgoing => h.nextOutgoing.map fun r => (.quiet, r.2)
  | .submitRound allPayloads =>
    match h.submitRound allPayloads with
    | some (.ok h) => some (.quiet, h)
    | some (.error _) => some (.quiet, h)
    | none => none

/-- A round is only submitted for a payload that was pulled before. -/
def inTurn (h : ProtocolHandle σ O M) : PumpAction S → Bool
  | .submitRound _ => decide (h.submitted.length < h.taken.length)
  | _ => true

theorem Aligned.pump {a : PumpAction S} (ha : Aligned h) (hstep : pumpStep g i h a = some (o, h')) :
    Aligned h' := by
  cases a with
  | thread rand => exact ha.thread (threaded_of_thread hstep)
  | nextOutgoing =>
    obtain ⟨⟨payload, h₁⟩, hnext, heq⟩ := Option.map_eq_some_iff.1 hstep
    cases heq
    exact ha.nextOutgoing hnext
  | submitRound allPayloads =>
    unfold pumpStep at hstep
    dsimp only at hstep
    split at hstep
    · rename_i h₁ hsubmit
      cases hstep
      exact ha.respond hsubmit
    · cases hstep
      exact ha
    · cases hstep

/-- Rounds are only submitted for payloads that were pulled. -/
theorem inTurn_step {a : PumpAction S} (hturn : inTurn h a = true)
    (hle : h.submitted.length ≤ h.taken.length) (hstep : pumpStep g i h a = some (o, h')) :
    h'.submitted.length ≤ h'.taken.length := by
  cases a with
  | thread rand =>
    cases threaded_of_thread hstep with
    | advance => exact hle
    | request => exact hle
    | resumed => exact hle
  | nextOutgoing =>
    obtain ⟨⟨out, h₁⟩, hnext, heq⟩ := Option.map_eq_some_iff.1 hstep
    cases heq
    rcases nextOutgoing_cases hnext with ⟨payload, -, -, rfl⟩ | ⟨-, rfl, -⟩
    · simp only [List.length_append, List.length_singleton]
      omega
    · exact hle
  | submitRound allPayloads =>
    have hlt : h.submitted.length < h.taken.length := of_decide_eq_true hturn
    unfold pumpStep at hstep
    dsimp only at hstep
    split at hstep
    · rename_i h₁ hsubmit
      cases hstep
      obtain ⟨-, -, rfl⟩ := respond_eq_ok hsubmit
      simp only [List.length_append, List.length_singleton]
      omega
    · cases hstep
      exact hle
    · cases hstep

theorem submitted_le_taken {sm : σ} {tr : List (PumpAction S × Obs M)}
    (hturns : Run (Steps (guarded inTurn (pumpStep g i))) (spawnProtocol sm) tr h) :
    h.submitted.length ≤ h.taken.length :=
  Run.invariant (P := fun h => h.submitted.length ≤ h.taken.length) (Nat.le_refl _)
    (fun _ _ _ _ hle hstep =>
      inTurn_step (steps_guarded.1 hstep).1 hle (steps_guarded.1 hstep).2) hturns

/-- At most one call has not returned. -/
theorem Aligned.posted_le (ha : Aligned h) : h.node.posted.length ≤ h.results.length + 1 := by
  by_cases hex : ∃ w, h.node.phase = .exchanging w
  · obtain ⟨w, hw⟩ := hex
    exact Nat.le_of_eq (ha.exchanging w hw).2
  · rw [(ha.back fun w hw => hex ⟨w, hw⟩).2]
    exact Nat.le_succ _

theorem Aligned.answered_length (ha : Aligned h) :
    h.submitted.length = h.results.length + h.resp.toList.length := by
  rw [ha.answered, List.length_append]

theorem Aligned.posted_length (ha : Aligned h) {c : ThreadCall} (hcall : h.call = some c) :
    h.node.posted.length =
      h.taken.length + h.req.toList.length + c.unsent.toList.length := by
  rw [ha.posted, List.length_append, List.length_append, hcall]
  rfl

/-- A payload that is not sent yet leaves no room for another in the channel. -/
theorem Aligned.req_none (ha : Aligned h) (hle : h.submitted.length ≤ h.taken.length)
    {ours : Bytes} (hcall : h.call = some (.sending ours)) : h.req = none := by
  have hcalls := ha.posted_le
  have hanswered := ha.answered_length
  have hposted := ha.posted_length hcall
  have hunsent : (ThreadCall.sending ours).unsent.toList.length = 1 := rfl
  have hreq : h.req.toList.length = 0 := by omega
  simpa using hreq

/-- While a payload is out, its call has not returned: the thread waits for the round. -/
theorem Aligned.parked (ha : Aligned h) (hlt : h.submitted.length < h.taken.length) :
    h.resp = none ∧ ∀ rand, h.thread g i rand = none := by
  have hcalls := ha.posted_le
  have hanswered := ha.answered_length
  have htaken := congrArg List.length ha.posted
  simp only [List.length_append] at htaken
  have hresp : h.resp = none := by
    have hlen : h.resp.toList.length = 0 := by omega
    simpa using hlen
  refine ⟨hresp, fun rand => ?_⟩
  have hex : ∃ w, h.node.phase = .exchanging w := by
    by_contra hno
    have hback := (ha.back fun w hw => hno ⟨w, hw⟩).2
    omega
  obtain ⟨w, hw⟩ := hex
  obtain ⟨⟨c, hc⟩, -⟩ := ha.exchanging w hw
  have hposted := ha.posted_length hc
  unfold ProtocolHandle.thread
  rw [hw, hc, hresp]
  cases c with
  | receiving => rfl
  | sending ours =>
    have hunsent : (ThreadCall.sending ours).unsent.toList.length = 1 := rfl
    omega

/-- **The pump parks the thread.**  However pulling, submitting and the thread interleave, round `k`
submitted is what call `k` of the exchange returns, and payload `k` pulled is what it was called
with.  Where rounds are only submitted for payloads that were pulled, no side ever finds its channel
full, and from the moment a payload is pulled until its round is submitted the thread stands
still. -/
theorem pump_parks (g : Group S σ O M) (i : PartyIndex) (sm : σ) {tr : List (PumpAction S × Obs M)}
    {h : ProtocolHandle σ O M} (hrun : Run (Steps (pumpStep g i)) (spawnProtocol sm) tr h) :
    h.taken <+: h.node.posted ∧ h.results <+: h.submitted ∧
    (Run (Steps (guarded inTurn (pumpStep g i))) (spawnProtocol sm) tr h →
      (∀ ours, h.call = some (.sending ours) → h.req = none) ∧
      (h.submitted.length < h.taken.length →
        h.resp = none ∧ ∀ rand, h.thread g i rand = none)) := by
  have ha : Aligned h := Run.invariant (P := Aligned) (aligned_spawn sm)
    (fun _ _ _ _ ha hstep => ha.pump hstep) hrun
  refine ⟨?_, ?_, fun hturns => ⟨fun ours hcall => ?_, fun hlt => ha.parked hlt⟩⟩
  · rw [ha.posted, List.append_assoc]
    exact List.prefix_append _ _
  · rw [ha.answered]
    exact List.prefix_append _ _
  · exact ha.req_none (submitted_le_taken hturns) hcall

/-! ## Driving to the end -/

/-- Where `drive` is: at the request channel, in the service, at the response channel, or waiting
for the output. -/
inductive DriveState (O : Type) where
  | receiving
  | servicing (payload : Bytes)
  | responding (result : RoundResult)
  | finishing
  | finished (output : Except String O)

structure Drive (σ O M : Type) where
  handle : ProtocolHandle σ O M
  state : DriveState O
  /-- Rounds the service has answered so far. -/
  serviced : List (Bytes × RoundResult)

inductive DriveAction (S : Suite) where
  | thread (rand : SealRandomness S)
  /-- A step of `drive`; in the service, with its answer. -/
  | drive (result : RoundResult)

def driveStep (g : Group S σ O M) (i : PartyIndex) (s : Drive σ O M) :
    DriveAction S → Option (Obs M × Drive σ O M)
  | .thread rand => (s.handle.thread g i rand).map fun r => (r.1, { s with handle := r.2 })
  | .drive result =>
    match s.state with
    | .receiving =>
      match s.handle.nextOutgoing with
      | some (some payload, h) =>
        some (.quiet, { s with handle := h, state := .servicing payload })
      | some (none, h) => some (.quiet, { s with handle := h, state := .finishing })
      | none => none
    | .servicing payload =>
      some (.quiet, { s with
        state := .responding result
        serviced := s.serviced ++ [(payload, result)] })
    | .responding result =>
      match s.handle.respond result with
      | some (.ok h) => some (.quiet, { s with handle := h, state := .receiving })
      | some (.error _) => some (.quiet, { s with state := .finishing })
      | none => none
    | .finishing =>
      match s.handle.intoOutput with
      | some output => some (.quiet, { s with state := .finished output })
      | none => none
    | .finished _ => none

/-- A party that calls the service itself. -/
inductive DirectAction (S : Suite) where
  | advance (rand : SealRandomness S)
  | exchange (result : RoundResult)

def directStep (g : Group S σ O M) (i : PartyIndex) (v : Node σ O M) :
    DirectAction S → Option (Obs M × Node σ O M)
  | .advance rand =>
    match v.phase with
    | .running => some (v.advance g i rand)
    | _ => none
  | .exchange result =>
    match v.phase with
    | .exchanging weSentSomething => some (v.exchanged g i weSentSomething result)
    | _ => none

/-- Answers of the service, oldest first. -/
def answers : List (DirectAction S × Obs M) → List RoundResult
  | [] => []
  | (.exchange result, _) :: tr => answers tr ++ [result]
  | (.advance _, _) :: tr => answers tr

/-- How far `drive` is with the rounds. -/
def DriveState.Paced (h : ProtocolHandle σ O M) (serviced : List (Bytes × RoundResult)) :
    DriveState O → Prop
  | .receiving => h.taken = serviced.map Prod.fst ∧ h.submitted = serviced.map Prod.snd
  | .servicing payload =>
    h.taken = serviced.map Prod.fst ++ [payload] ∧ h.submitted = serviced.map Prod.snd
  | .responding result =>
    h.taken = serviced.map Prod.fst ∧ h.submitted ++ [result] = serviced.map Prod.snd
  | .finishing => h.taken = serviced.map Prod.fst ∧ h.submitted <+: serviced.map Prod.snd
  | .finished output =>
    h.taken = serviced.map Prod.fst ∧ h.submitted <+: serviced.map Prod.snd ∧
      h.node.phase = .returned output

structure Driven (g : Group S σ O M) (i : PartyIndex) (sm : σ) (s : Drive σ O M) : Prop where
  aligned : Aligned s.handle
  paced : s.state.Paced s.handle s.serviced
  direct : ∃ tr, Run (Steps (directStep g i)) (spawnProtocol sm : ProtocolHandle σ O M).node tr
    s.handle.node ∧ answers tr = s.handle.results

/-- A step of the thread leaves alone what has crossed the channels, and never leaves a loop that
has returned. -/
theorem Threaded.crossed (hstep : Threaded g i rand h o h') :
    h'.taken = h.taken ∧ h'.submitted = h.submitted ∧ ∀ r, h.node.phase ≠ .returned r := by
  cases hstep with
  | advance hphase => exact ⟨rfl, rfl, fun r hr => by cases hphase.symm.trans hr⟩
  | request hphase => exact ⟨rfl, rfl, fun r hr => by cases hphase.symm.trans hr⟩
  | resumed hphase => exact ⟨rfl, rfl, fun r hr => by cases hphase.symm.trans hr⟩

theorem DriveState.Paced.thread {state : DriveState O} {serviced : List (Bytes × RoundResult)}
    (hp : state.Paced h serviced) (hstep : Threaded g i rand h o h') : state.Paced h' serviced := by
  obtain ⟨htaken, hsubmitted, hback⟩ := hstep.crossed
  cases state with
  | receiving => exact ⟨htaken.trans hp.1, hsubmitted.trans hp.2⟩
  | servicing payload => exact ⟨htaken.trans hp.1, hsubmitted.trans hp.2⟩
  | responding result => exact ⟨htaken.trans hp.1, by rw [hsubmitted]; exact hp.2⟩
  | finishing => exact ⟨htaken.trans hp.1, by rw [hsubmitted]; exact hp.2⟩
  | finished output => exact absurd hp.2.2 (hback output)

/-- A step of the thread is a step of a loop that calls the service itself, or none. -/
theorem Threaded.direct {sm : σ} (hstep : Threaded g i rand h o h')
    (hdirect : ∃ tr, Run (Steps (directStep g i)) (spawnProtocol sm : ProtocolHandle σ O M).node tr
      h.node ∧ answers tr = h.results) :
    ∃ tr, Run (Steps (directStep g i)) (spawnProtocol sm : ProtocolHandle σ O M).node tr h'.node ∧
      answers tr = h'.results := by
  obtain ⟨tr, hrun, hanswers⟩ := hdirect
  cases hstep with
  | @advance o v hphase hadv =>
    refine ⟨(.advance rand, o) :: tr, hrun.next ?_, hanswers⟩
    unfold Steps directStep
    dsimp only
    rw [hphase]
    dsimp only
    rw [hadv]
  | request => exact ⟨tr, hrun, hanswers⟩
  | @resumed w result o v hphase hcall hresp hexchanged =>
    refine ⟨(.exchange result, o) :: tr, hrun.next ?_, ?_⟩
    · unfold Steps directStep
      dsimp only
      rw [hphase]
      dsimp only
      rw [hexchanged]
    · rw [answers, hanswers]

theorem Driven.thread {sm : σ} {s : Drive σ O M} (hd : Driven g i sm s)
    (hstep : Threaded g i rand s.handle o h') : Driven g i sm { s with handle := h' } :=
  ⟨hd.aligned.thread hstep, hd.paced.thread hstep, hstep.direct hd.direct⟩

theorem Driven.step {sm : σ} {s s' : Drive σ O M} {a : DriveAction S} (hd : Driven g i sm s)
    (hstep : driveStep g i s a = some (o, s')) : Driven g i sm s' := by
  cases a with
  | thread rand =>
    obtain ⟨⟨o, h'⟩, hthread, heq⟩ := Option.map_eq_some_iff.1 hstep
    cases heq
    exact hd.thread (threaded_of_thread hthread)
  | drive result =>
    obtain ⟨ha, hp, hdirect⟩ := hd
    unfold driveStep at hstep
    dsimp only at hstep
    split at hstep
    · rename_i hstate
      rw [hstate] at hp
      split at hstep
      · rename_i payload h₁ hnext
        cases hstep
        have hnext' := ha.nextOutgoing hnext
        rcases nextOutgoing_cases hnext with ⟨_, heq, -, rfl⟩ | ⟨heq, -, -⟩
        · cases heq
          exact ⟨hnext', ⟨by rw [hp.1], hp.2⟩, hdirect⟩
        · cases heq
      · rename_i h₁ hnext
        cases hstep
        rcases nextOutgoing_cases hnext with ⟨_, heq, -, -⟩ | ⟨-, rfl, -⟩
        · cases heq
        · exact ⟨ha, ⟨hp.1, hp.2 ▸ List.prefix_rfl⟩, hdirect⟩
      · cases hstep
    · rename_i payload hstate
      rw [hstate] at hp
      cases hstep
      refine ⟨ha, ⟨?_, ?_⟩, hdirect⟩
      · rw [hp.1, List.map_append]
        rfl
      · rw [hp.2, List.map_append]
        rfl
    · rename_i result' hstate
      rw [hstate] at hp
      split at hstep
      · rename_i h₁ hrespond
        cases hstep
        have hrespond' := ha.respond hrespond
        obtain ⟨-, -, rfl⟩ := respond_eq_ok hrespond
        exact ⟨hrespond', ⟨hp.1, hp.2⟩, hdirect⟩
      · cases hstep
        exact ⟨ha, ⟨hp.1, hp.2 ▸ List.prefix_append _ _⟩, hdirect⟩
      · cases hstep
    · rename_i hstate
      rw [hstate] at hp
      split at hstep
      · rename_i output houtput
        cases hstep
        unfold ProtocolHandle.intoOutput at houtput
        split at houtput
        · rename_i hphase
          cases houtput
          exact ⟨ha, ⟨hp.1, hp.2, hphase⟩, hdirect⟩
        · cases houtput
      · cases hstep
    · cases hstep

theorem DriveState.Paced.prefixes {state : DriveState O} {serviced : List (Bytes × RoundResult)}
    (hp : state.Paced h serviced) :
    serviced.map Prod.fst <+: h.taken ∧ h.submitted <+: serviced.map Prod.snd := by
  cases state with
  | receiving => exact ⟨hp.1 ▸ List.prefix_rfl, hp.2 ▸ List.prefix_rfl⟩
  | servicing payload => exact ⟨hp.1 ▸ List.prefix_append _ _, hp.2 ▸ List.prefix_rfl⟩
  | responding result => exact ⟨hp.1 ▸ List.prefix_rfl, hp.2 ▸ List.prefix_append _ _⟩
  | finishing => exact ⟨hp.1 ▸ List.prefix_rfl, hp.2⟩
  | finished output => exact ⟨hp.1 ▸ List.prefix_rfl, hp.2.1⟩

/-- **A party driven from the async side is one that calls the service itself.**  Its loop goes
through the passes of a loop whose calls of the exchange are answered by the service at once; call
`k` is answered with what the service said to payload `k`, no payload is serviced twice or out of
order, and the output of `drive` is the output of the loop. -/
theorem drive_refines (g : Group S σ O M) (i : PartyIndex) (sm : σ)
    {tr : List (DriveAction S × Obs M)} {s : Drive σ O M}
    (hrun : Run (Steps (driveStep g i)) ⟨spawnProtocol sm, .receiving, []⟩ tr s) :
    (∃ tr', Run (Steps (directStep g i)) (spawnProtocol sm : ProtocolHandle σ O M).node tr'
      s.handle.node ∧ answers tr' = s.handle.results) ∧
    s.serviced.map Prod.fst <+: s.handle.node.posted ∧
    (∀ (k : Nat) (result : RoundResult), s.handle.results[k]? = some result → ∃ payload,
      s.handle.node.posted[k]? = some payload ∧ s.serviced[k]? = some (payload, result)) ∧
    ∀ output, s.state = .finished output → s.handle.node.phase = .returned output := by
  have hstart : Driven g i sm ⟨spawnProtocol sm, .receiving, []⟩ :=
    ⟨aligned_spawn sm, ⟨rfl, rfl⟩, [], .start, rfl⟩
  have hd : Driven g i sm s := Run.invariant (P := Driven g i sm) hstart
    (fun _ _ _ _ hd hstep => hd.step hstep) hrun
  obtain ⟨hserviced, hsubmitted⟩ := hd.paced.prefixes
  have htaken : s.handle.taken <+: s.handle.node.posted := by
    rw [hd.aligned.posted, List.append_assoc]
    exact List.prefix_append _ _
  have hresults : s.handle.results <+: s.serviced.map Prod.snd :=
    (hd.aligned.answered ▸ List.prefix_append _ _ : s.handle.results <+: _).trans hsubmitted
  refine ⟨hd.direct, hserviced.trans htaken, fun k result hk => ?_, fun output hout => ?_⟩
  · have hsnd := getElem?_prefix_mono hresults hk
    rw [List.getElem?_map, Option.map_eq_some_iff] at hsnd
    obtain ⟨⟨payload, result'⟩, hentry, rfl⟩ := hsnd
    refine ⟨payload, getElem?_prefix_mono (hserviced.trans htaken) ?_, hentry⟩
    rw [List.getElem?_map, hentry]
    rfl
  · have hp := hd.paced
    rw [hout] at hp
    exact hp.2.2

end Handle

/-! ## A sample -/

/-- The first party of the pair seals its messages and parks. -/
def samplePumpActions : List (PumpAction sampleSuite) :=
  [.thread sampleRand, .thread sampleRand, .thread sampleRand, .thread sampleRand, .nextOutgoing]

theorem samplePumpActions_accepted :
    (exec (guarded inTurn (pumpStep samplePair 0)) [] (spawnProtocol (sampleScripts 0))
      samplePumpActions).isSome := by
  decide +kernel

def sampleParked : ProtocolHandle (List (ProceedResult Unit UInt8)) Unit UInt8 :=
  ((exec (guarded inTurn (pumpStep samplePair 0)) [] (spawnProtocol (sampleScripts 0))
    samplePumpActions).get samplePumpActions_accepted).2

theorem pump_parks_sample :
    sampleParked.submitted.length < sampleParked.taken.length ∧
      ∀ rand, sampleParked.thread samplePair 0 rand = none := by
  have hout : sampleParked.submitted.length < sampleParked.taken.length := by decide +kernel
  have hturns := Run.of_isSome samplePumpActions_accepted
  obtain ⟨-, -, hparked⟩ := pump_parks samplePair 0 (sampleScripts 0) hturns.of_guarded
  exact ⟨hout, ((hparked hturns).2 hout).2⟩

/-- The service fails, and so does the party. -/
def sampleDriveActions : List (DriveAction sampleSuite) :=
  [.thread sampleRand, .thread sampleRand, .thread sampleRand, .thread sampleRand,
    .drive (.error "down"), .drive (.error "down"), .drive (.error "down"), .thread sampleRand,
    .drive (.error "down"), .drive (.error "down")]

theorem sampleDriveActions_accepted :
    (exec (driveStep samplePair 0) [] ⟨spawnProtocol (sampleScripts 0), .receiving, []⟩
      sampleDriveActions).isSome := by
  decide +kernel

def sampleDriven : Drive (List (ProceedResult Unit UInt8)) Unit UInt8 :=
  ((exec (driveStep samplePair 0) [] ⟨spawnProtocol (sampleScripts 0), .receiving, []⟩
    sampleDriveActions).get sampleDriveActions_accepted).2

theorem drive_refines_sample :
    sampleDriven.handle.results.length = 1 ∧ sampleDriven.serviced.length = 1 ∧
      sampleDriven.serviced.map Prod.fst <+: sampleDriven.handle.node.posted := by
  obtain ⟨-, hposted, -, -⟩ := drive_refines samplePair 0 (sampleScripts 0)
    (Run.of_isSome sampleDriveActions_accepted)
  exact ⟨by decide +kernel, by decide +kernel, hposted⟩

end Experimint.ThresholdEcdsa
