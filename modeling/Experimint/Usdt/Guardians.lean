import Experimint.Usdt.Signer
import Experimint.Usdt.Timeline

/-!
# A guardian's place in the log

A guardian's database is that of a position in the log, and an item in progress leads to the next
one.  The thread it has spawned for a session is its party among the signers, and its slot holds the
payload of the round the session is at, whatever the guardian does and however often it restarts.

The facts are stated over a log that continues the one processed so far: what its items lead to does
not depend on what comes later.

* `Placed` — databases are those of positions in the log.
* `Parked`, `Signs` — a slot at rest, and the thread behind it.
* `Engaged` — how thread, slot and work in progress fit to the place; `Engaged.acted` is the step.
-/

set_option autoImplicit false

namespace Experimint.FedimintUsdt

open ThresholdEcdsa

variable {S : Suite} {σ O M Seed : Type} {u : Usdt} {cfg : SigningConfig S σ O M Seed}
  {sid : SigningSessionId} {p : PeerId} {log L : List Item} {v v' : Guardian S σ O M}

/-! ## Places -/

/-- The position a guardian's slot belongs to: the item in progress counts. -/
def Guardian.reach (v : Guardian S σ O M) : Nat :=
  match v.work with
  | none => v.pos
  | some _ => v.pos + 1

theorem reach_of_none (h : v.work = none) : v.reach = v.pos := by
  rw [Guardian.reach, h]

theorem reach_of_some {w : Work} (h : v.work = some w) : v.reach = v.pos + 1 := by
  rw [Guardian.reach, h]

theorem pos_le_reach (v : Guardian S σ O M) : v.pos ≤ v.reach := by
  unfold Guardian.reach
  split
  · exact Nat.le_refl _
  · exact Nat.le_succ _

/-- Databases are those of positions in the log. -/
structure Placed (u : Usdt) (L : List Item) (n : Nat) (v : Guardian S σ O M) : Prop where
  reach_le : v.reach ≤ n
  db_eq : v.db = u.dbAt L v.pos
  work_eq : ∀ w, v.work = some w → w.dbtx = u.dbAt L (v.pos + 1)
  snapshot_eq : ∀ db, v.snapshot = some db → ∃ j ≤ v.pos, db = u.dbAt L j

theorem placed_start (u : Usdt) (L : List Item) (n : Nat) :
    Placed u L n (Guardian.start : Guardian S σ O M) where
  reach_le := Nat.zero_le n
  db_eq := rfl
  work_eq _ h := by cases h
  snapshot_eq _ h := by cases h

theorem Placed.mono {n n' : Nat} (h : Placed u L n v) (hn : n ≤ n') : Placed u L n' v :=
  ⟨h.reach_le.trans hn, h.db_eq, h.work_eq, h.snapshot_eq⟩

section Taken

variable {n : Nat} {item : Item} {o : Answer} {dbtx : Db}

theorem lt_length_of_item {k : Nat} (hitem : log[k]? = some item) : k < log.length :=
  (List.getElem?_eq_some_iff.1 hitem).1

/-- The item in progress leads to the next position. -/
theorem Placed.next_eq (h : Placed u L n v) (hlog : log <+: L) (hitem : log[v.pos]? = some item)
    (hstep : u.step v.db item = some (o, dbtx)) : dbtx = u.dbAt L (v.pos + 1) := by
  rw [h.db_eq] at hstep
  exact (dbAt_accepted (getElem?_prefix_mono hlog hitem) hstep).symm

theorem Placed.stays_eq (h : Placed u L n v) (hlog : log <+: L) (hitem : log[v.pos]? = some item)
    (hstep : u.step v.db item = none) : u.dbAt L (v.pos + 1) = u.dbAt L v.pos := by
  rw [h.db_eq] at hstep
  exact dbAt_rejected (getElem?_prefix_mono hlog hitem) hstep

/-- A guardian that takes an item has a place in the log for it. -/
theorem Placed.take (h : Placed u L log.length v) (hlog : log <+: L)
    (hitem : log[v.pos]? = some item) (hstep : u.step v.db item = some (o, dbtx)) {w : Work}
    (hwork : v'.work = some w) (hdbtx : w.dbtx = dbtx) (hpos : v'.pos = v.pos)
    (hdb : v'.db = v.db) (hsnapshot : v'.snapshot = v.snapshot) : Placed u L log.length v' := by
  refine ⟨?_, ?_, fun w' hw' => ?_, ?_⟩
  · rw [reach_of_some hwork, hpos]
    exact lt_length_of_item hitem
  · rw [hdb, hpos]
    exact h.db_eq
  · cases hwork.symm.trans hw'
    rw [hdbtx, hpos]
    exact h.next_eq hlog hitem hstep
  · rw [hsnapshot, hpos]
    exact h.snapshot_eq

/-- A guardian goes on with its item. -/
theorem Placed.work (h : Placed u L n v) {w w' : Work} (hw : v.work = some w)
    (hwork : v'.work = some w') (hdbtx : w'.dbtx = w.dbtx) (hpos : v'.pos = v.pos)
    (hdb : v'.db = v.db) (hsnapshot : v'.snapshot = v.snapshot) : Placed u L n v' := by
  refine ⟨?_, ?_, fun w₁ hw₁ => ?_, ?_⟩
  · rw [reach_of_some hwork, hpos, ← reach_of_some hw]
    exact h.reach_le
  · rw [hdb, hpos]
    exact h.db_eq
  · cases hwork.symm.trans hw₁
    rw [hdbtx, hpos]
    exact h.work_eq w hw
  · rw [hsnapshot, hpos]
    exact h.snapshot_eq

end Taken

theorem Placed.acted (h : Placed u L log.length v) (hlog : log <+: L)
    (hact : Acted u cfg sid p log v v') : Placed u L log.length v' := by
  cases hact with
  | @rejected item hwork hitem hstep =>
    refine ⟨?_, ?_, fun w hw => (by cases hwork.symm.trans hw), fun db hdb => ?_⟩
    · exact (reach_of_none (v := { v with pos := v.pos + 1 }) hwork).trans_le
        (lt_length_of_item hitem)
    · exact h.db_eq.trans (h.stays_eq hlog hitem hstep).symm
    · obtain ⟨j, hj, heq⟩ := h.snapshot_eq db hdb
      exact ⟨j, Nat.le_succ_of_le hj, heq⟩
  | spawned hwork hitem hstep => exact h.take hlog hitem hstep rfl rfl rfl rfl rfl
  | completed hwork hitem hstep => exact h.take hlog hitem hstep rfl rfl rfl rfl rfl
  | processed hwork hitem hstep => exact h.take hlog hitem hstep rfl rfl rfl rfl rfl
  | submitted hwork => exact h.work hwork rfl rfl rfl rfl rfl
  | lost hwork => exact h.work hwork rfl rfl rfl rfl rfl
  | pumped hwork => exact h.work hwork rfl rfl rfl rfl rfl
  | reaped hwork => exact h.work hwork rfl rfl rfl rfl rfl
  | @commit dbtx hwork =>
    refine ⟨?_, h.work_eq _ hwork, fun w hw => (by cases hw), fun db hdb => ?_⟩
    · have hle := h.reach_le
      rw [reach_of_some hwork] at hle
      exact hle
    · obtain ⟨j, hj, heq⟩ := h.snapshot_eq db hdb
      exact ⟨j, Nat.le_succ_of_le hj, heq⟩
  | threaded => exact ⟨h.reach_le, h.db_eq, h.work_eq, h.snapshot_eq⟩
  | snapshot =>
    refine ⟨h.reach_le, h.db_eq, h.work_eq, fun db hdb => ?_⟩
    cases hdb
    exact ⟨v.pos, Nat.le_refl _, h.db_eq⟩
  | restart =>
    exact ⟨(pos_le_reach v).trans h.reach_le, h.db_eq, fun w hw => (by cases hw),
      fun db hdb => (by cases hdb)⟩

/-! ## Threads and slots -/

/-- The party a guardian is among the signers of a session. -/
structure Party (cfg : SigningConfig S σ O M Seed) (sid : SigningSessionId) (p : PeerId)
    (session : SigningSession) (t : SignerThread S σ O M) : Prop where
  small : (session.signers.insertionSort (· ≤ ·)).length < 2 ^ 16
  group : t.group = cfg.group sid (session.signers.insertionSort (· ≤ ·)) small
  index : (session.signers.insertionSort (· ≤ ·)).idxOf? p = some t.index.val
  machine : ∃ seed, t.spawned = cfg.signing (signingEid sid) t.index
    (session.signers.insertionSort (· ≤ ·)) p session.digest seed

theorem getElem?_of_idxOf? {l : List PeerId} {k : Nat} (h : l.idxOf? p = some k) :
    l[k]? = some p := by
  obtain ⟨hlt, heq, -⟩ := List.findIdx?_eq_some_iff_getElem.1 h
  rw [List.getElem?_eq_getElem hlt]
  exact congrArg some (by simpa using heq)

theorem spawnSigningSession_eq_some {session : SigningSession} {seed : Seed}
    {t : SignerThread S σ O M}
    (h : spawnSigningSession cfg sid session.digest session.signers p seed = some t) :
    Party cfg sid p session t ∧ t.handle = spawnProtocol t.spawned := by
  unfold spawnSigningSession at h
  dsimp only at h
  split at h
  · cases h
  · rename_i pos hpos
    split at h
    · rename_i hsmall
      cases h
      have hlt := (List.getElem?_eq_some_iff.1 (getElem?_of_idxOf? hpos)).1
      refine ⟨⟨hsmall, rfl, ?_, seed, rfl⟩, rfl⟩
      rw [hpos]
      exact congrArg some (Nat.mod_eq_of_lt (hlt.trans hsmall)).symm
    · cases h

theorem Party.mem {session : SigningSession} {t : SignerThread S σ O M}
    (h : Party cfg sid p session t) : p ∈ session.signers :=
  (List.mem_insertionSort _).1 (List.mem_of_getElem? (getElem?_of_idxOf? h.index))

/-- What holds of a guardian's thread: it is the guardian's party, and the rounds it has got are
those the log decides. -/
structure Signs (u : Usdt) (cfg : SigningConfig S σ O M Seed) (L : List Item)
    (sid : SigningSessionId) (p : PeerId) (t : SignerThread S σ O M) : Prop where
  party : ∃ j session, u.sessionAt L sid j = some session ∧ Party cfg sid p session t
  aligned : Aligned t.handle
  decided : ∀ (k : Nat) (result : RoundResult), t.handle.submitted[k]? = some result →
    ∃ all, result = .ok all ∧ Decides u L sid k all
  direct : ∃ tr, Run (Steps (directStep t.group t.index))
    (spawnProtocol t.spawned : ProtocolHandle σ O M).node tr t.handle.node ∧
      answers tr = t.handle.results

variable {t : SignerThread S σ O M} {h : ProtocolHandle σ O M}

theorem Signs.threaded {rand : SealRandomness S} {o : Obs M} (hs : Signs u cfg L sid p t)
    (hstep : Threaded t.group t.index rand t.handle o h) :
    Signs u cfg L sid p { t with handle := h } := by
  obtain ⟨j, session, hrow, hparty⟩ := hs.party
  refine ⟨⟨j, session, hrow, hparty.small, hparty.group, hparty.index, hparty.machine⟩,
    hs.aligned.thread hstep, ?_, hstep.direct hs.direct⟩
  rw [hstep.crossed.2.1]
  exact hs.decided

theorem Signs.submitted {payloads : List Bytes} (hs : Signs u cfg L sid p t)
    (hdecides : Decides u L sid t.handle.submitted.length payloads)
    (hsubmit : t.handle.submitRound payloads = some (.ok h)) :
    Signs u cfg L sid p { t with handle := h } := by
  obtain ⟨j, session, hrow, hparty⟩ := hs.party
  have haligned := hs.aligned.respond hsubmit
  obtain ⟨-, -, rfl⟩ := respond_eq_ok hsubmit
  refine ⟨⟨j, session, hrow, hparty.small, hparty.group, hparty.index, hparty.machine⟩, haligned,
    ?_, hs.direct⟩
  intro k result hk
  rcases Nat.lt_or_ge k t.handle.submitted.length with hlt | hge
  · rw [List.getElem?_append_left hlt] at hk
    exact hs.decided k result hk
  · rw [List.getElem?_append_right hge, List.getElem?_singleton] at hk
    split at hk
    · rename_i hzero
      cases hk
      have hlast : k = t.handle.submitted.length := by omega
      exact ⟨payloads, rfl, hlast ▸ hdecides⟩
    · cases hk

theorem Signs.pulled {out : Option Bytes} (hs : Signs u cfg L sid p t)
    (hnext : t.handle.nextOutgoing = some (out, h)) :
    Signs u cfg L sid p { t with handle := h } := by
  obtain ⟨j, session, hrow, hparty⟩ := hs.party
  have haligned := hs.aligned.nextOutgoing hnext
  refine ⟨⟨j, session, hrow, hparty.small, hparty.group, hparty.index, hparty.machine⟩, haligned,
    ?_, ?_⟩
  · rcases nextOutgoing_cases hnext with ⟨payload, -, -, rfl⟩ | ⟨-, rfl, -⟩ <;> exact hs.decided
  · rcases nextOutgoing_cases hnext with ⟨payload, -, -, rfl⟩ | ⟨-, rfl, -⟩ <;> exact hs.direct

/-- A slot at rest: what it holds is the payload of the round that is to be submitted next. -/
structure Parked (slot : SessionSlot) (h : ProtocolHandle σ O M) : Prop where
  round : slot.round = h.submitted.length
  pending : slot.pendingOutgoing = h.taken[h.submitted.length]?
  ahead : h.taken.length = h.submitted.length + 1 ∨
    h.taken.length = h.submitted.length ∧ ∃ r, h.node.phase = .returned r
  done : slot.done = true → ∃ r, h.node.phase = .returned r

theorem Parked.threaded {slot : SessionSlot} {h' : ProtocolHandle σ O M} {g : Group S σ O M}
    {i : PartyIndex} {rand : SealRandomness S} {o : Obs M} (hp : Parked slot h)
    (hstep : Threaded g i rand h o h') : Parked slot h' := by
  obtain ⟨htaken, hsubmitted, hback⟩ := hstep.crossed
  refine ⟨by rw [hsubmitted]; exact hp.round, by rw [hsubmitted, htaken]; exact hp.pending, ?_, ?_⟩
  · rw [hsubmitted, htaken]
    rcases hp.ahead with hahead | ⟨-, r, hr⟩
    · exact .inl hahead
    · exact absurd hr (hback r)
  · intro hdone
    obtain ⟨r, hr⟩ := hp.done hdone
    exact absurd hr (hback r)

/-- Pumping parks a slot whose payload was submitted. -/
theorem pump_parked {slot : SessionSlot} {h' : ProtocolHandle σ O M}
    (hlen : h.taken.length = h.submitted.length)
    (hpump : pumpSlotOutgoing ⟨none, h.submitted.length, false⟩ h = some (slot, h')) :
    (∃ out, h.nextOutgoing = some (out, h')) ∧ Parked slot h' ∧
      h'.submitted = h.submitted ∧ h'.node = h.node := by
  unfold pumpSlotOutgoing at hpump
  simp only [Option.isNone_none, Bool.not_false, Bool.and_self, if_true] at hpump
  split at hpump
  · cases hpump
  · rename_i payload h₁ hnext
    cases hpump
    refine ⟨⟨_, hnext⟩, ?_⟩
    rcases nextOutgoing_cases hnext with ⟨payload', heq, -, rfl⟩ | ⟨heq, -, -⟩
    · cases heq
      refine ⟨⟨rfl, ?_, .inl ?_, fun hdone => (by cases hdone)⟩, rfl, rfl⟩
      · simp only [← hlen, List.getElem?_concat_length]
      · simp only [List.length_append, List.length_singleton, hlen]
    · cases heq
  · rename_i h₁ hnext
    cases hpump
    refine ⟨⟨_, hnext⟩, ?_⟩
    rcases nextOutgoing_cases hnext with ⟨payload', heq, -, -⟩ | ⟨-, rfl, hback⟩
    · cases heq
    · refine ⟨⟨rfl, ?_, .inr ⟨hlen, hback⟩, fun _ => hback⟩, rfl, rfl⟩
      rw [List.getElem?_eq_none_iff.2 hlen.le]

/-- What an item in progress has to do with the thread. -/
def Guardian.Working (u : Usdt) (L : List Item) (sid : SigningSessionId) (v : Guardian S σ O M) :
    Prop :=
  match v.work with
  | some (.submitting slot round payloads _) =>
    v.slot = none ∧ ∃ t, v.thread = some t ∧ Parked slot t.handle ∧
      round = t.handle.submitted.length + 1 ∧
      Decides u L sid t.handle.submitted.length payloads ∧
      Reached u L sid (v.pos + 1) (t.handle.submitted.length + 1)
  | some (.pumping _ slot _) =>
    v.slot = none ∧ ∃ t, v.thread = some t ∧ slot = ⟨none, t.handle.submitted.length, false⟩ ∧
      t.handle.taken.length = t.handle.submitted.length ∧
      Reached u L sid (v.pos + 1) t.handle.submitted.length
  | some (.finishing _) => True
  | none => True

/-- How a guardian's thread, slot and work fit to its place. -/
structure Engaged (u : Usdt) (cfg : SigningConfig S σ O M Seed) (L : List Item)
    (sid : SigningSessionId) (p : PeerId) (v : Guardian S σ O M) : Prop where
  signs : ∀ t, v.thread = some t → Signs u cfg L sid p t
  slot : ∀ slot, v.slot = some slot → ∃ t, v.thread = some t ∧ Parked slot t.handle ∧
    Reached u L sid v.reach t.handle.submitted.length
  working : v.Working u L sid
  completed : ∀ output, v.completed = some output → Begun u L sid v.reach ∧
    ∃ t, v.thread = some t ∧ t.handle.node.phase = .returned output

theorem engaged_start : Engaged u cfg L sid p (Guardian.start : Guardian S σ O M) where
  signs _ h := by cases h
  slot _ h := by cases h
  working := trivial
  completed _ h := by cases h

section Take

variable {item : Item} {o : Answer} {dbtx : Db} {n : Nat}

/-- An item that is rejected changes nothing. -/
theorem Engaged.rejected (he : Engaged u cfg L sid p v) (hplaced : Placed u L n v)
    (hlog : log <+: L) (hwork : v.work = none) (hitem : log[v.pos]? = some item)
    (hstep : u.step v.db item = none) : Engaged u cfg L sid p { v with pos := v.pos + 1 } := by
  have hsame : u.sessionAt L sid (v.pos + 1) = u.sessionAt L sid v.pos :=
    congrArg (fun db : Db => db.signingSession.get? sid) (hplaced.stays_eq hlog hitem hstep)
  have hreach : Guardian.reach { v with pos := v.pos + 1 } = v.pos + 1 := reach_of_none hwork
  refine ⟨he.signs, fun slot hslot => ?_, ?_, fun output hout => ?_⟩
  · obtain ⟨t, hthread, hparked, hreached⟩ := he.slot slot hslot
    refine ⟨t, hthread, hparked, ?_⟩
    rw [reach_of_none hwork] at hreached
    rw [hreach]
    refine hreached.next fun session hrow => ?_
    rw [hsame] at hrow
    exact hreached.highest v.pos (Nat.le_refl _) session hrow
  · unfold Guardian.Working
    simp only [hwork]
  · obtain ⟨hbegun, hthread⟩ := he.completed output hout
    rw [reach_of_none hwork] at hbegun
    rw [hreach]
    exact ⟨hbegun.mono (Nat.le_succ _), hthread⟩

/-- A thread is spawned where the session starts. -/
theorem Engaged.spawned (he : Engaged u cfg L sid p v) (hplaced : Placed u L n v)
    (honce : Once u L) (hlog : log <+: L) (hwork : v.work = none)
    (hitem : log[v.pos]? = some item) (hstep : u.step v.db item = some (o, dbtx))
    {session : SigningSession} {seed : Seed}
    (hstarted : startedSession sid v.db dbtx = some session)
    (hspawn : spawnSigningSession cfg sid session.digest session.signers p seed = some t) :
    Engaged u cfg L sid p
      { v with thread := some t, work := some (.pumping true ⟨none, 0, false⟩ dbtx) } := by
  obtain ⟨hnone, hsome⟩ := startedSession_eq_some hstarted
  have hround := Accepts.round_zero hstep hnone hsome
  obtain ⟨hparty, hsm⟩ := spawnSigningSession_eq_some hspawn
  rw [hplaced.db_eq] at hnone
  rw [hplaced.next_eq hlog hitem hstep] at hsome
  -- so nothing is left of an earlier one
  have hnew := honce.not_begun hnone hsome
  have hslot : v.slot = none := by
    cases hslot : v.slot with
    | none => rfl
    | some slot =>
      obtain ⟨t, -, -, hreached⟩ := he.slot slot hslot
      rw [reach_of_none hwork] at hreached
      exact absurd hreached.begun hnew
  refine ⟨fun t' ht' => ?_, fun slot hs => ?_, ?_, fun output hout => ?_⟩
  · cases ht'
    refine ⟨⟨v.pos + 1, session, hsome, hparty⟩, ?_, ?_, [], ?_, ?_⟩
    · rw [hsm]
      exact aligned_spawn t.spawned
    · rw [hsm]
      intro k result hk
      cases hk
    · rw [hsm]
      exact .start
    · rw [hsm]
      rfl
  · cases hslot.symm.trans hs
  · refine ⟨hslot, t, rfl, ?_, ?_, ?_⟩
    · rw [hsm]
      rfl
    · rw [hsm]
      rfl
    · rw [hsm]
      exact Reached.first honce hnone hsome hround
  · obtain ⟨hbegun, -⟩ := he.completed output hout
    rw [reach_of_none hwork] at hbegun
    exact absurd hbegun hnew

/-- The signers stay those the thread was spawned among. -/
theorem Signs.mem_signers (hs : Signs u cfg L sid p t) (honce : Once u L) {k : Nat}
    {session : SigningSession} (hrow : u.sessionAt L sid k = some session) :
    p ∈ session.signers := by
  obtain ⟨j, session₀, hrow₀, hparty⟩ := hs.party
  rw [honce.signers hrow₀ hrow]
  exact hparty.mem

/-- A signer takes part in every round that ends. -/
theorem roundPayloads_isSome {k : Nat} {session session' : SigningSession}
    (hitem : L[k]? = some item) (hstep : u.step (u.dbAt L k) item = some (o, dbtx))
    (hrow : u.sessionAt L sid k = some session) (hrow' : dbtx.signingSession.get? sid = some session')
    (hlt : session.round < session'.round) (hp : p ∈ session.signers) :
    ∃ r, roundPayloads sid p (u.dbAt L k) item = some r := by
  obtain ⟨m, q, rfl, hid, hround, hfits, hcomplete⟩ := Accepts.round_ended hstep hrow hrow' hlt
  obtain ⟨tr, run⟩ := run_dbAt u L k
  have hinv : RoundInv ((u.dbAt L k).storeChunk m q) :=
    (run_roundInv run).storeChunk hfits (by rw [hid]; exact hrow) hround
  have hpeers : ∀ p' ∈ session.signers,
      ((u.dbAt L k).storeChunk m q).peerComplete sid m.round p' = true := by
    intro p' hp'
    rw [← hid]
    exact List.all_eq_true.1 hcomplete p' hp'
  obtain ⟨payload, -, hall⟩ := hinv.reassemblePayloads hpeers
  have hrow : (u.dbAt L k).signingSession.get? sid = some session := hrow
  unfold roundPayloads
  dsimp only
  rw [if_pos hid, hrow]
  dsimp only
  rw [if_pos (by rw [hcomplete, decide_eq_true hp]; rfl), hall]
  exact ⟨_, rfl⟩

/-- An item that ends no round of this guardian leaves its slot alone. -/
theorem Engaged.processed (he : Engaged u cfg L sid p v) (hplaced : Placed u L n v)
    (honce : Once u L) (hlog : log <+: L) (hwork : v.work = none)
    (hitem : log[v.pos]? = some item) (hstep : u.step v.db item = some (o, dbtx))
    (hround : ∀ r, roundPayloads sid p v.db item = some r → v.slot = none) :
    Engaged u cfg L sid p { v with work := some (.finishing dbtx) } := by
  have hnext := hplaced.next_eq hlog hitem hstep
  refine ⟨he.signs, fun slot hslot => ?_, trivial, fun output hout => ?_⟩
  · obtain ⟨t, hthread, hparked, hreached⟩ := he.slot slot hslot
    rw [reach_of_none hwork] at hreached
    refine ⟨t, hthread, hparked, ?_⟩
    show Reached u L sid (v.pos + 1) _
    refine hreached.next fun session' hrow' => ?_
    cases hrow : u.sessionAt L sid v.pos with
    | none => exact absurd hreached.begun (honce.not_begun hrow hrow')
    | some session =>
      have hle := hreached.highest v.pos (Nat.le_refl _) session hrow
      by_contra hgt
      obtain ⟨r, hr⟩ := roundPayloads_isSome (p := p) (getElem?_prefix_mono hlog hitem)
        (hplaced.db_eq ▸ hstep) hrow (by rw [hnext]; exact hrow') (by omega)
        ((he.signs t hthread).mem_signers honce hrow)
      cases (hround r (by rw [hplaced.db_eq]; exact hr)).symm.trans hslot
  · obtain ⟨hbegun, hthread⟩ := he.completed output hout
    rw [reach_of_none hwork] at hbegun
    exact ⟨hbegun.mono (Nat.le_succ _), hthread⟩

/-- A round that ends is submitted as the log decides it. -/
theorem Engaged.roundCompleted (he : Engaged u cfg L sid p v) (hplaced : Placed u L n v)
    (honce : Once u L) (hlog : log <+: L) (hwork : v.work = none)
    (hitem : log[v.pos]? = some item) (hstep : u.step v.db item = some (o, dbtx)) {round : Nat}
    {payloads : List Bytes} {slot : SessionSlot}
    (hround : roundPayloads sid p v.db item = some (round, payloads)) (hslot : v.slot = some slot) :
    Engaged u cfg L sid p
      { v with slot := none, work := some (.submitting slot round payloads dbtx) } := by
  have hnext := hplaced.next_eq hlog hitem hstep
  obtain ⟨t, hthread, hparked, hreached⟩ := he.slot slot hslot
  rw [reach_of_none hwork] at hreached
  obtain ⟨m, q, session, rfl, rfl, hrow, rfl, hcomplete, hall⟩ := roundPayloads_eq_some hround
  have hok : u.processMpcRound v.db m q = .ok dbtx := Accepts.consensus hstep
  obtain ⟨session₁, hrow₁, -, hmround, -, -⟩ := processMpcRound_eq_ok_iff.1 hok
  cases hrow.symm.trans hrow₁
  obtain ⟨session', hrow', hmore⟩ := processMpcRound_ends hok hrow hcomplete
  rw [hnext] at hrow' hok
  rw [hplaced.db_eq] at hrow hcomplete hall hok
  have hcurrent := hreached.round_eq honce hrow
  rw [hmround, hcurrent] at hall
  refine ⟨he.signs, fun slot hs => (by cases hs), ?_, fun output hout => ?_⟩
  · refine ⟨rfl, t, hthread, hparked, by rw [hcurrent], ?_, ?_⟩
    · exact ⟨v.pos, m, q, session, getElem?_prefix_mono hlog hitem, rfl, hrow, hcurrent, hok, hcomplete,
        hall⟩
    · exact hreached.succ hrow' (by rw [hmore, hcurrent])
  · obtain ⟨hbegun, hthread⟩ := he.completed output hout
    rw [reach_of_none hwork] at hbegun
    exact ⟨hbegun.mono (Nat.le_succ _), hthread⟩

end Take

/-- A guardian that goes on with its item, with the thread's output as it was. -/
theorem Engaged.completed_of {w w' : Work} (he : Engaged u cfg L sid p v)
    (v' : Guardian S σ O M) (hw : v.work = some w) (hw' : v'.work = some w') (hpos : v'.pos = v.pos)
    (hcompleted : v'.completed = v.completed) (hthread : v.thread = some t)
    (hthread' : v'.thread = some { t with handle := h })
    (hback : ∀ r, t.handle.node.phase = .returned r → h.node.phase = .returned r) :
    ∀ output, v'.completed = some output → Begun u L sid v'.reach ∧
      ∃ t, v'.thread = some t ∧ t.handle.node.phase = .returned output := by
  intro output hout
  rw [hcompleted] at hout
  obtain ⟨hbegun, t₁, ht₁, hphase⟩ := he.completed output hout
  cases hthread.symm.trans ht₁
  refine ⟨?_, _, hthread', hback output hphase⟩
  rw [reach_of_some hw', hpos, ← reach_of_some hw]
  exact hbegun

theorem Engaged.submitted (he : Engaged u cfg L sid p v) {slot : SessionSlot} {round : Nat}
    {payloads : List Bytes} {dbtx : Db}
    (hwork : v.work = some (.submitting slot round payloads dbtx)) (hthread : v.thread = some t)
    (hsubmit : t.handle.submitRound payloads = some (.ok h)) :
    Engaged u cfg L sid p
      { v with
        thread := some { t with handle := h }
        work := some (.pumping false { slot with pendingOutgoing := none, round := round } dbtx) }
      := by
  have hworking := he.working
  unfold Guardian.Working at hworking
  rw [hwork] at hworking
  obtain ⟨hslot, t₁, ht₁, hparked, hround, hdecides, hreached⟩ := hworking
  cases hthread.symm.trans ht₁
  have hsigns := (he.signs t hthread).submitted hdecides hsubmit
  have hcompleted := he.completed_of (t := t) (h := h)
    { v with
      thread := some { t with handle := h }
      work := some (.pumping false { slot with pendingOutgoing := none, round := round } dbtx) }
    hwork rfl rfl rfl hthread rfl
  obtain ⟨hrunning, -, rfl⟩ := respond_eq_ok hsubmit
  have hlen : t.handle.taken.length = t.handle.submitted.length + 1 := by
    rcases hparked.ahead with hahead | ⟨-, r, hr⟩
    · exact hahead
    · exact absurd hr (hrunning r)
  have hdone : slot.done = false := by
    cases hdone : slot.done with
    | false => rfl
    | true =>
      obtain ⟨r, hr⟩ := hparked.done hdone
      exact absurd hr (hrunning r)
  refine ⟨fun t' ht' => ?_, fun slot' hs => (by cases hslot.symm.trans hs), ?_,
    hcompleted fun r hr => hr⟩
  · cases ht'
    exact hsigns
  · refine ⟨hslot, _, rfl, ?_, ?_, ?_⟩
    · simp only [List.length_append, List.length_singleton, hround, hdone]
    · simp only [List.length_append, List.length_singleton, hlen]
    · simpa only [List.length_append, List.length_singleton] using hreached

/-- What pumping finds. -/
theorem Engaged.pump (he : Engaged u cfg L sid p v) {spawned : Bool} {slot slot' : SessionSlot}
    {dbtx : Db} (hwork : v.work = some (.pumping spawned slot dbtx)) (hthread : v.thread = some t)
    (hpump : pumpSlotOutgoing slot t.handle = some (slot', h)) :
    v.slot = none ∧ Signs u cfg L sid p { t with handle := h } ∧ Parked slot' h ∧
      h.node = t.handle.node ∧ Reached u L sid (v.pos + 1) h.submitted.length := by
  have hworking := he.working
  unfold Guardian.Working at hworking
  rw [hwork] at hworking
  obtain ⟨hslot, t₁, ht₁, rfl, hlen, hreached⟩ := hworking
  cases hthread.symm.trans ht₁
  obtain ⟨⟨out, hnext⟩, hparked, hsubmitted, hnode⟩ := pump_parked hlen hpump
  refine ⟨hslot, (he.signs t hthread).pulled hnext, hparked, hnode, ?_⟩
  rw [hsubmitted]
  exact hreached

theorem Engaged.reaped (he : Engaged u cfg L sid p v) {spawned : Bool} {slot slot' : SessionSlot}
    {dbtx : Db} (hwork : v.work = some (.pumping spawned slot dbtx)) (hthread : v.thread = some t)
    (hpump : pumpSlotOutgoing slot t.handle = some (slot', h)) :
    Engaged u cfg L sid p
      { v with
        thread := some { t with handle := h }
        completed := h.intoOutput
        work := some (.finishing dbtx) } := by
  obtain ⟨hslot, hsigns, -, -, hreached⟩ := he.pump hwork hthread hpump
  refine ⟨fun t' ht' => ?_, fun slot' hs => (by cases hslot.symm.trans hs), trivial,
    fun output hout => ⟨hreached.begun, _, rfl, ?_⟩⟩
  · cases ht'
    exact hsigns
  · have hout : h.intoOutput = some output := hout
    unfold ProtocolHandle.intoOutput at hout
    split at hout
    · rename_i hphase
      cases hout
      exact hphase
    · cases hout

theorem Engaged.threaded {rand : SealRandomness S} {o : Obs M} (he : Engaged u cfg L sid p v)
    (hthread : v.thread = some t) (hstep : Threaded t.group t.index rand t.handle o h) :
    Engaged u cfg L sid p { v with thread := some { t with handle := h } } := by
  obtain ⟨htaken, hsubmitted, hback⟩ := hstep.crossed
  refine ⟨fun t' ht' => ?_, fun slot hslot => ?_, ?_, fun output hout => ?_⟩
  · cases ht'
    exact (he.signs t hthread).threaded hstep
  · obtain ⟨t₁, ht₁, hparked, hreached⟩ := he.slot slot hslot
    cases hthread.symm.trans ht₁
    refine ⟨_, rfl, hparked.threaded hstep, ?_⟩
    simp only [hsubmitted]
    exact hreached
  · have hworking := he.working
    unfold Guardian.Working at hworking ⊢
    dsimp only
    split at hworking
    · rename_i slot round payloads dbtx hwork
      obtain ⟨hslot, t₁, ht₁, hparked, hround, hdecides, hreached⟩ := hworking
      cases hthread.symm.trans ht₁
      rw [← hsubmitted] at hround hdecides hreached
      exact ⟨hslot, _, rfl, hparked.threaded hstep, hround, hdecides, hreached⟩
    · rename_i spawned slot dbtx hwork
      obtain ⟨hslot, t₁, ht₁, hempty, hlen, hreached⟩ := hworking
      cases hthread.symm.trans ht₁
      rw [← hsubmitted] at hempty hlen hreached
      rw [← htaken] at hlen
      exact ⟨hslot, _, rfl, hempty, hlen, hreached⟩
    · trivial
    · trivial
  · obtain ⟨-, t₁, ht₁, hphase⟩ := he.completed output hout
    cases hthread.symm.trans ht₁
    exact absurd hphase (hback output)

/-- **A guardian's thread and slot keep fitting to its place in the log.** -/
theorem Engaged.acted (he : Engaged u cfg L sid p v) (hplaced : Placed u L log.length v)
    (honce : Once u L) (hlog : log <+: L) (hact : Acted u cfg sid p log v v') :
    Engaged u cfg L sid p v' := by
  cases hact with
  | rejected hwork hitem hstep => exact he.rejected hplaced hlog hwork hitem hstep
  | spawned hwork hitem hstep hstarted hspawn =>
    exact he.spawned hplaced honce hlog hwork hitem hstep hstarted hspawn
  | completed hwork hitem hstep hround hslot =>
    exact he.roundCompleted hplaced honce hlog hwork hitem hstep hround hslot
  | processed hwork hitem hstep hround =>
    exact he.processed hplaced honce hlog hwork hitem hstep hround
  | submitted hwork hthread hsubmit => exact he.submitted hwork hthread hsubmit
  | @lost slot round payloads dbtx hwork =>
    have hworking := he.working
    unfold Guardian.Working at hworking
    rw [hwork] at hworking
    refine ⟨he.signs, fun slot' hs => (by cases hworking.1.symm.trans hs), trivial,
      fun output hout => ?_⟩
    have hreach := reach_of_some hwork
    obtain ⟨hbegun, hthread⟩ := he.completed output hout
    rw [hreach] at hbegun
    exact ⟨hbegun, hthread⟩
  | @pumped spawned slot slot' dbtx t h hwork hthread hpump =>
    obtain ⟨-, hsigns, hparked, hnode, hreached⟩ := he.pump hwork hthread hpump
    refine ⟨fun t' ht' => ?_, fun slot₁ hs => ?_, trivial, ?_⟩
    · cases ht'
      exact hsigns
    · cases hs
      exact ⟨_, rfl, hparked, hreached⟩
    · exact he.completed_of (t := t) (h := h) _ hwork rfl rfl rfl hthread rfl
        fun r hr => hnode ▸ hr
  | reaped hwork hthread hpump => exact he.reaped hwork hthread hpump
  | @commit dbtx hwork =>
    have hreach : v.reach = v.pos + 1 := reach_of_some hwork
    refine ⟨he.signs, fun slot hslot => ?_, trivial, fun output hout => ?_⟩
    · have hparked := he.slot slot hslot
      rw [hreach] at hparked
      exact hparked
    · have hcompleted := he.completed output hout
      rw [hreach] at hcompleted
      exact hcompleted
  | threaded hthread hstep => exact he.threaded hthread hstep
  | snapshot => exact ⟨he.signs, he.slot, he.working, he.completed⟩
  | restart =>
    exact ⟨he.signs, fun slot hs => (by cases hs), trivial, fun output hout => (by cases hout)⟩

end Experimint.FedimintUsdt
