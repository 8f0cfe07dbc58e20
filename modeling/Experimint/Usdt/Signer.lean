import Experimint.Lib.Replay
import Experimint.Threshold.OffThread
import Experimint.Usdt.Sessions

/-!
# Guardians signing over consensus

A signer runs the protocol on a thread of its own, and the rounds of the protocol cross the ordered
log: a payload is proposed in chunks, and when the log holds the payloads of all signers, everyone
who processes it hands them to its thread.  Processing and proposing are separate tasks.  Processing
owns the thread; it updates the slot before the transaction it works in is committed.  Proposing
reads the database of some earlier commit and the slot as it is now, so the two may belong to
different rounds.

* `Guardian` — one guardian with its place in the log, its database and its slot for one session.
* `Guardian.act` — the steps of a guardian; `Acted` says what each can do.
* `Federation.step` — guardians over one log, in which any item may be ordered at any time, except
  that a round's chunk in an honest guardian's name is one it has proposed.
-/

set_option autoImplicit false

namespace Experimint.FedimintUsdt

open ThresholdEcdsa

/-! ## Spawning -/

def SIGNING_EID_PREFIX : Bytes := ascii "fedimint-usdt-signing-eid/"

/-- Keys of the guardians, and the signing protocol with its serializers. -/
structure SigningConfig (S : Suite) (σ O M Seed : Type) where
  mpcEncryptionSk : PeerId → S.SecretKey
  machine : StateMachine σ O M
  msg : Serializer M
  packets : Serializer RoundPacket
  /-- The machine of one party: execution id, own position, keygen indices, the guardian whose key
  share it is, digest and randomness. -/
  signing : Bytes → PartyIndex → List PeerId → PeerId → Hash → Seed → σ

/-- A protocol thread with the party it runs as. -/
structure SignerThread (S : Suite) (σ O M : Type) where
  index : PartyIndex
  group : Group S σ O M
  /-- The machine it was spawned with. -/
  spawned : σ
  handle : ProtocolHandle σ O M

section Model

variable {S : Suite} {σ O M Seed : Type}

/-- The execution id of a session. -/
def signingEid (sessionId : SigningSessionId) : Bytes :=
  SIGNING_EID_PREFIX ++ wordBytes sessionId.val

/-- The parties of a session: the signers in ascending order, with their keys. -/
def SigningConfig.group (cfg : SigningConfig S σ O M Seed) (sessionId : SigningSessionId)
    (subset : List PeerId) (hsmall : subset.length < 2 ^ 16) : Group S σ O M where
  n := subset.length
  n_lt := hsmall
  machine := cfg.machine
  codec i :=
    { myIndex := i
      mySecret := cfg.mpcEncryptionSk (subset.getD i.val 0)
      partyPubkeys := subset.map fun p => S.publicKey (cfg.mpcEncryptionSk p)
      domain := signingEid sessionId }
  msg := cfg.msg
  packets := cfg.packets
  myIndex_eq _ := rfl
  domain_eq _ _ := rfl
  partyPubkeys_eq i j hj := by simp [hj]

/-- The thread of a signer; `none` for a guardian outside the subset.  A subset too large for 16-bit
positions is a malformed configuration, where the source panics. -/
def spawnSigningSession (cfg : SigningConfig S σ O M Seed) (sessionId : SigningSessionId)
    (digest : Hash) (signers : List PeerId) (ourPeerId : PeerId) (seed : Seed) :
    Option (SignerThread S σ O M) :=
  let subset := signers.insertionSort (· ≤ ·)
  match subset.idxOf? ourPeerId with
  | none => none
  | some pos =>
    let ourPos : PartyIndex := Fin.ofNat (2 ^ 16) pos
    let sm := cfg.signing (signingEid sessionId) ourPos subset ourPeerId digest seed
    if hsmall : subset.length < 2 ^ 16 then
      some
        { index := ourPos
          group := cfg.group sessionId subset hsmall
          spawned := sm
          handle := spawnProtocol sm }
    else none

/-! ## Slots -/

/-- A session in the store of a guardian.  Its handle is the guardian's `thread`. -/
structure SessionSlot where
  pendingOutgoing : Option Bytes
  round : Nat
  done : Bool
deriving DecidableEq

/-- Pulls the next payload; waits while the thread has none. -/
def pumpSlotOutgoing (slot : SessionSlot) (h : ProtocolHandle σ O M) :
    Option (SessionSlot × ProtocolHandle σ O M) :=
  if slot.pendingOutgoing.isNone && !slot.done then
    match h.nextOutgoing with
    | none => none
    | some (some payload, h) => some ({ slot with pendingOutgoing := some payload }, h)
    | some (none, h) => some ({ slot with done := true }, h)
  else some (slot, h)

/-! ## Guardians -/

/-- Where the processing of an item is, with the database its transaction has come to: pumping a
slot that was just spawned or submitted to, submitting a round, or done with the local part. -/
inductive Work where
  | submitting (slot : SessionSlot) (round : Nat) (payloads : List Bytes) (dbtx : Db)
  | pumping (spawned : Bool) (slot : SessionSlot) (dbtx : Db)
  | finishing (dbtx : Db)

def Work.dbtx : Work → Db
  | submitting _ _ _ dbtx => dbtx
  | pumping _ _ dbtx => dbtx
  | finishing dbtx => dbtx

/-- One guardian, as far as one session is concerned. -/
structure Guardian (S : Suite) (σ O M : Type) where
  /-- Items processed. -/
  pos : Nat
  /-- What is committed. -/
  db : Db
  work : Option Work
  slot : Option SessionSlot
  /-- The thread spawned last.  It stays on record when its slot is dropped, but stands still. -/
  thread : Option (SignerThread S σ O M)
  /-- The database a proposal in progress reads. -/
  snapshot : Option Db
  completed : Option (Except String O)

def Guardian.start : Guardian S σ O M := ⟨0, Db.empty, none, none, none, none, none⟩

/-- The session that an accepted item has started. -/
def startedSession (sessionId : SigningSessionId) (db dbtx : Db) : Option SigningSession :=
  if db.signingSession.contains sessionId then none else dbtx.signingSession.get? sessionId

/-- The round an accepted chunk completes, for one of the signers: the number of the next one, and
what the signers have sent. -/
def roundPayloads (sessionId : SigningSessionId) (ourPeerId : PeerId) (db : Db) :
    Item → Option (Nat × List Bytes)
  | .consensus (.mpcRound m) peerId =>
    if m.sessionId = sessionId then
      match db.signingSession.get? sessionId with
      | none => none
      | some session =>
        let dbtx := db.storeChunk m peerId
        if dbtx.roundComplete m session && decide (ourPeerId ∈ session.signers) then
          match dbtx.reassemblePayloads sessionId m.round session.signers with
          | .ok payloads => some (session.round + 1, payloads)
          | .error _ => none
        else none
    else none
  | _ => none

/-- The local part of an accepted item: a signer of a session that was started spawns its thread, and
a signer of a round that was completed takes its slot and submits to it. -/
def Guardian.accepted (cfg : SigningConfig S σ O M Seed) (sessionId : SigningSessionId)
    (ourPeerId : PeerId) (seed : Seed) (v : Guardian S σ O M) (item : Item) (dbtx : Db) :
    Guardian S σ O M :=
  match startedSession sessionId v.db dbtx with
  | some session =>
    match spawnSigningSession cfg sessionId session.digest session.signers ourPeerId seed with
    | some thread =>
      { v with thread := some thread, work := some (.pumping true ⟨none, 0, false⟩ dbtx) }
    | none => { v with work := some (.finishing dbtx) }
  | none =>
    match roundPayloads sessionId ourPeerId v.db item, v.slot with
    | some (round, payloads), some slot =>
      { v with slot := none, work := some (.submitting slot round payloads dbtx) }
    | _, _ => { v with work := some (.finishing dbtx) }

/-- Takes the next item of the log; a rejected one leaves no trace. -/
def Guardian.take (u : Usdt) (cfg : SigningConfig S σ O M Seed) (sessionId : SigningSessionId)
    (ourPeerId : PeerId) (seed : Seed) (log : List Item) (v : Guardian S σ O M) :
    Option (Guardian S σ O M) :=
  match v.work, log[v.pos]? with
  | none, some item =>
    match u.step v.db item with
    | none => some { v with pos := v.pos + 1 }
    | some (_, dbtx) => some (v.accepted cfg sessionId ourPeerId seed item dbtx)
  | _, _ => none

/-- Hands the round to the thread; a slot whose thread is back is dropped. -/
def Guardian.submit (v : Guardian S σ O M) : Option (Guardian S σ O M) :=
  match v.work, v.thread with
  | some (.submitting slot round payloads dbtx), some t =>
    match t.handle.submitRound payloads with
    | none => none
    | some (.error _) => some { v with work := some (.finishing dbtx) }
    | some (.ok h) =>
      some { v with
        thread := some { t with handle := h }
        work := some (.pumping false { slot with pendingOutgoing := none, round := round } dbtx) }
  | _, _ => none

/-- Pulls the payload of the next round and stores the slot, or reaps the output of a thread that is
back. -/
def Guardian.pump (v : Guardian S σ O M) : Option (Guardian S σ O M) :=
  match v.work, v.thread with
  | some (.pumping spawned slot dbtx), some t =>
    match pumpSlotOutgoing slot t.handle with
    | none => none
    | some (slot, h) =>
      if spawned || !slot.done then
        some { v with
          thread := some { t with handle := h }
          slot := some slot
          work := some (.finishing dbtx) }
      else
        some { v with
          thread := some { t with handle := h }
          completed := h.intoOutput
          work := some (.finishing dbtx) }
  | _, _ => none

def Guardian.commit (v : Guardian S σ O M) : Option (Guardian S σ O M) :=
  match v.work with
  | some (.finishing dbtx) => some { v with pos := v.pos + 1, db := dbtx, work := none }
  | _ => none

/-- Whether the handle of the thread is held. -/
def Guardian.owned (v : Guardian S σ O M) : Bool :=
  v.slot.isSome ||
    match v.work with
    | some (.submitting ..) => true
    | some (.pumping ..) => true
    | _ => false

def Guardian.runThread (rand : SealRandomness S) (v : Guardian S σ O M) :
    Option (Guardian S σ O M) :=
  match v.owned, v.thread with
  | true, some t =>
    match t.handle.thread t.group t.index rand with
    | none => none
    | some (_, h) => some { v with thread := some { t with handle := h } }
  | _, _ => none

inductive GuardianAction (S : Suite) (Seed : Type) where
  | take (seed : Seed)
  | submit
  | pump
  | commit
  | thread (rand : SealRandomness S)
  /-- A proposal begins: it will read what is committed now. -/
  | snapshot
  /-- The process ends and comes up again: what was in memory is gone. -/
  | restart

def Guardian.act (u : Usdt) (cfg : SigningConfig S σ O M Seed) (sessionId : SigningSessionId)
    (ourPeerId : PeerId) (log : List Item) (v : Guardian S σ O M) :
    GuardianAction S Seed → Option (Guardian S σ O M)
  | .take seed => v.take u cfg sessionId ourPeerId seed log
  | .submit => v.submit
  | .pump => v.pump
  | .commit => v.commit
  | .thread rand => v.runThread rand
  | .snapshot => some { v with snapshot := some v.db }
  | .restart => some { v with work := none, slot := none, snapshot := none, completed := none }

/-- Chunks of the pending payload that the database does not have, under the round the database is
at. -/
def proposeRound (sessionId : SigningSessionId) (ourPeerId : PeerId) (dbtx : Db)
    (slot : Option SessionSlot) : List MpcRoundItem :=
  match dbtx.signingSession.get? sessionId with
  | none => []
  | some session =>
    if ourPeerId ∉ session.signers then []
    else if session.state ≠ .inProgress then []
    else
      match slot.bind SessionSlot.pendingOutgoing with
      | none => []
      | some payload =>
        (List.range (chunkPayload payload).length).filterMap fun i =>
          if dbtx.mpcRoundChunk.contains ⟨sessionId, session.round, ourPeerId, i⟩ then none
          else some (chunkItem sessionId session.round payload i)

/-! ## The federation -/

structure Federation (S : Suite) (σ O M : Type) where
  log : List Item
  proposed : List (MpcRoundItem × PeerId)
  guardian : PeerId → Guardian S σ O M

def Federation.start : Federation S σ O M := ⟨[], [], fun _ => .start⟩

inductive FederationAction (S : Suite) (Seed : Type) where
  | order (item : Item)
  | guardian (p : PeerId) (a : GuardianAction S Seed)
  | propose (p : PeerId)

/-- Items that may be ordered: nobody speaks for an honest guardian. -/
def Federation.orderable (honest : PeerId → Bool) (sessionId : SigningSessionId)
    (s : Federation S σ O M) : Item → Bool
  | .consensus (.mpcRound m) p =>
    !(decide (m.sessionId = sessionId) && honest p) || decide ((m, p) ∈ s.proposed)
  | _ => true

def Federation.step (u : Usdt) (cfg : SigningConfig S σ O M Seed) (honest : PeerId → Bool)
    (sessionId : SigningSessionId) (s : Federation S σ O M) :
    FederationAction S Seed → Option (Unit × Federation S σ O M)
  | .order item =>
    if s.orderable honest sessionId item then some ((), { s with log := s.log ++ [item] }) else none
  | .guardian p a =>
    match (s.guardian p).act u cfg sessionId p s.log a with
    | none => none
    | some v => some ((), { s with guardian := Function.update s.guardian p v })
  | .propose p =>
    match (s.guardian p).snapshot with
    | none => none
    | some dbtx =>
      some ((), { s with
        proposed := s.proposed ++ (proposeRound sessionId p dbtx (s.guardian p).slot).map (·, p)
        guardian := Function.update s.guardian p { s.guardian p with snapshot := none } })

/-! ## What a step can do -/

/-- The steps of a guardian. -/
inductive Acted (u : Usdt) (cfg : SigningConfig S σ O M Seed) (sid : SigningSessionId) (p : PeerId)
    (log : List Item) (v : Guardian S σ O M) : Guardian S σ O M → Prop
  | rejected {item : Item} (hwork : v.work = none) (hitem : log[v.pos]? = some item)
      (hstep : u.step v.db item = none) : Acted u cfg sid p log v { v with pos := v.pos + 1 }
  | spawned {item : Item} {o : Answer} {dbtx : Db} {session : SigningSession} {seed : Seed}
      {t : SignerThread S σ O M} (hwork : v.work = none) (hitem : log[v.pos]? = some item)
      (hstep : u.step v.db item = some (o, dbtx))
      (hstarted : startedSession sid v.db dbtx = some session)
      (hspawn : spawnSigningSession cfg sid session.digest session.signers p seed = some t) :
      Acted u cfg sid p log v
        { v with thread := some t, work := some (.pumping true ⟨none, 0, false⟩ dbtx) }
  | completed {item : Item} {o : Answer} {dbtx : Db} {round : Nat} {payloads : List Bytes}
      {slot : SessionSlot} (hwork : v.work = none) (hitem : log[v.pos]? = some item)
      (hstep : u.step v.db item = some (o, dbtx))
      (hround : roundPayloads sid p v.db item = some (round, payloads))
      (hslot : v.slot = some slot) :
      Acted u cfg sid p log v
        { v with slot := none, work := some (.submitting slot round payloads dbtx) }
  | processed {item : Item} {o : Answer} {dbtx : Db} (hwork : v.work = none)
      (hitem : log[v.pos]? = some item) (hstep : u.step v.db item = some (o, dbtx))
      (hround : ∀ r, roundPayloads sid p v.db item = some r → v.slot = none) :
      Acted u cfg sid p log v { v with work := some (.finishing dbtx) }
  | submitted {slot : SessionSlot} {round : Nat} {payloads : List Bytes} {dbtx : Db}
      {t : SignerThread S σ O M} {h : ProtocolHandle σ O M}
      (hwork : v.work = some (.submitting slot round payloads dbtx)) (hthread : v.thread = some t)
      (hsubmit : t.handle.submitRound payloads = some (.ok h)) :
      Acted u cfg sid p log v
        { v with
          thread := some { t with handle := h }
          work := some (.pumping false { slot with pendingOutgoing := none, round := round } dbtx) }
  | lost {slot : SessionSlot} {round : Nat} {payloads : List Bytes} {dbtx : Db}
      (hwork : v.work = some (.submitting slot round payloads dbtx)) :
      Acted u cfg sid p log v { v with work := some (.finishing dbtx) }
  | pumped {spawned : Bool} {slot slot' : SessionSlot} {dbtx : Db} {t : SignerThread S σ O M}
      {h : ProtocolHandle σ O M} (hwork : v.work = some (.pumping spawned slot dbtx))
      (hthread : v.thread = some t) (hpump : pumpSlotOutgoing slot t.handle = some (slot', h)) :
      Acted u cfg sid p log v
        { v with
          thread := some { t with handle := h }
          slot := some slot'
          work := some (.finishing dbtx) }
  | reaped {spawned : Bool} {slot slot' : SessionSlot} {dbtx : Db} {t : SignerThread S σ O M}
      {h : ProtocolHandle σ O M} (hwork : v.work = some (.pumping spawned slot dbtx))
      (hthread : v.thread = some t) (hpump : pumpSlotOutgoing slot t.handle = some (slot', h)) :
      Acted u cfg sid p log v
        { v with
          thread := some { t with handle := h }
          completed := h.intoOutput
          work := some (.finishing dbtx) }
  | commit {dbtx : Db} (hwork : v.work = some (.finishing dbtx)) :
      Acted u cfg sid p log v { v with pos := v.pos + 1, db := dbtx, work := none }
  | threaded {t : SignerThread S σ O M} {rand : SealRandomness S} {o : Obs M}
      {h : ProtocolHandle σ O M} (hthread : v.thread = some t)
      (hstep : Threaded t.group t.index rand t.handle o h) :
      Acted u cfg sid p log v { v with thread := some { t with handle := h } }
  | snapshot : Acted u cfg sid p log v { v with snapshot := some v.db }
  | restart : Acted u cfg sid p log v
      { v with work := none, slot := none, snapshot := none, completed := none }

variable {u : Usdt} {cfg : SigningConfig S σ O M Seed} {sid : SigningSessionId} {p : PeerId}
  {log : List Item} {v v' : Guardian S σ O M}

theorem startedSession_eq_some {db dbtx : Db} {session : SigningSession}
    (h : startedSession sid db dbtx = some session) :
    db.signingSession.get? sid = none ∧ dbtx.signingSession.get? sid = some session := by
  unfold startedSession at h
  split at h
  · cases h
  · rename_i hnew
    exact ⟨by simpa [Table.contains] using hnew, h⟩

/-- A round that an item completes, for one of the signers. -/
theorem roundPayloads_eq_some {db : Db} {item : Item} {round : Nat} {payloads : List Bytes}
    (h : roundPayloads sid p db item = some (round, payloads)) :
    ∃ m q session, item = .consensus (.mpcRound m) q ∧ m.sessionId = sid ∧
      db.signingSession.get? sid = some session ∧ round = session.round + 1 ∧
      (db.storeChunk m q).roundComplete m session = true ∧
      (db.storeChunk m q).reassemblePayloads sid m.round session.signers = .ok payloads := by
  unfold roundPayloads at h
  split at h
  · rename_i m q
    split at h
    · rename_i hid
      split at h
      · cases h
      · rename_i session hsession
        dsimp only at h
        split at h
        · rename_i hcomplete
          split at h
          · rename_i all hall
            cases h
            rw [Bool.and_eq_true] at hcomplete
            exact ⟨m, q, session, rfl, hid, hsession, rfl, hcomplete.1, hall⟩
          · cases h
        · cases h
    · cases h
  · cases h

theorem acted_of_accepted {seed : Seed} {item : Item} {o : Answer} {dbtx : Db}
    (hwork : v.work = none) (hitem : log[v.pos]? = some item)
    (hstep : u.step v.db item = some (o, dbtx)) :
    Acted u cfg sid p log v (v.accepted cfg sid p seed item dbtx) := by
  unfold Guardian.accepted
  split
  · rename_i session hstarted
    split
    · rename_i t hspawn
      exact .spawned hwork hitem hstep hstarted hspawn
    · refine .processed hwork hitem hstep fun r hround => ?_
      obtain ⟨_, _, _, -, -, hsome, -⟩ := roundPayloads_eq_some hround
      cases (startedSession_eq_some hstarted).1.symm.trans hsome
  · split
    · rename_i round payloads slot hround hslot
      exact .completed hwork hitem hstep hround hslot
    · rename_i hno
      refine .processed hwork hitem hstep fun r hround => ?_
      cases hslot : v.slot with
      | none => rfl
      | some slot => exact absurd hslot (hno r.1 r.2 slot hround)

/-- **What a guardian can do.** -/
theorem acted_of_act {a : GuardianAction S Seed} (h : v.act u cfg sid p log a = some v') :
    Acted u cfg sid p log v v' := by
  cases a with
  | take seed =>
    simp only [Guardian.act, Guardian.take] at h
    split at h
    · rename_i item hwork hitem
      split at h
      · rename_i hstep
        cases h
        exact .rejected hwork hitem hstep
      · rename_i hstep
        cases h
        exact acted_of_accepted hwork hitem hstep
    · cases h
  | submit =>
    simp only [Guardian.act, Guardian.submit] at h
    split at h
    · rename_i hwork hthread
      split at h
      · cases h
      · cases h
        exact .lost hwork
      · rename_i hsubmit
        cases h
        exact .submitted hwork hthread hsubmit
    · cases h
  | pump =>
    simp only [Guardian.act, Guardian.pump] at h
    split at h
    · rename_i hwork hthread
      split at h
      · cases h
      · rename_i hpump
        split at h
        · cases h
          exact .pumped hwork hthread hpump
        · cases h
          exact .reaped hwork hthread hpump
    · cases h
  | commit =>
    simp only [Guardian.act, Guardian.commit] at h
    split at h
    · rename_i hwork
      cases h
      exact .commit hwork
    · cases h
  | thread rand =>
    simp only [Guardian.act, Guardian.runThread] at h
    split at h
    · rename_i hthread
      split at h
      · cases h
      · rename_i hstep
        cases h
        exact .threaded hthread (threaded_of_thread hstep)
    · cases h
  | snapshot =>
    cases h
    exact .snapshot
  | restart =>
    cases h
    exact .restart

end Model

end Experimint.FedimintUsdt
