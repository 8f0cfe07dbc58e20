import Experimint.Threshold.Lockstep
import Experimint.Usdt.Guardians
import Experimint.Usdt.Rotation

/-!
# Signing rounds over the log

The guardians process one log at their own pace, restart, and propose from databases that lag behind
their threads.  A proposal whose payload and round do not belong together carries a round that the
session has left already, so wherever it is ordered it is rejected.  Hence the calls that the
signers' threads make of the exchange are answered as the exchange promises: call `k` with the
payloads of call `k`, the same for everyone.

* `Issued` — what a guardian's proposal is: a piece of its payload for that round, or late.
* `InStep` — the invariant of a run, over the log that the run ends with.
* `consensus_exchange` — answers of the exchange are the signers' payloads, and agree.
* `consensus_lockstep` — honest signers sign as they would over a mesh.
-/

set_option autoImplicit false

namespace Experimint.FedimintUsdt

open ThresholdEcdsa

variable {S : Suite} {σ O M Seed : Type} {u : Usdt} {cfg : SigningConfig S σ O M Seed}
  {sid : SigningSessionId} {p : PeerId} {log L : List Item} {v v' : Guardian S σ O M}
  {t : SignerThread S σ O M}

/-! ## Proposals -/

/-- A chunk of the payload the thread has made the item's round with. -/
def Fresh (v : Guardian S σ O M) (m : MpcRoundItem) : Prop :=
  ∃ t payload, v.thread = some t ∧ t.handle.node.posted[m.round]? = some payload ∧
    m = chunkItem m.sessionId m.round payload m.chunk

/-- The session has left the item's round by position `n`. -/
def Late (u : Usdt) (L : List Item) (sid : SigningSessionId) (n : Nat) (m : MpcRoundItem) : Prop :=
  ∃ j ≤ n, ∃ session, u.sessionAt L sid j = some session ∧ m.round < session.round

/-- What a guardian has proposed for the session, by the time the log has `n` items. -/
structure Issued (u : Usdt) (L : List Item) (sid : SigningSessionId) (n : Nat)
    (v : Guardian S σ O M) (m : MpcRoundItem) : Prop where
  /-- The start of the session is committed, so the thread is not spawned again. -/
  begun : Begun u L sid v.pos
  fresh_or_late : Fresh v m ∨ Late u L sid n m

theorem Issued.mono {n n' : Nat} {m : MpcRoundItem} (h : Issued u L sid n v m) (hn : n ≤ n') :
    Issued u L sid n' v m := by
  refine ⟨h.begun, h.fresh_or_late.imp_right ?_⟩
  rintro ⟨j, hj, hlate⟩
  exact ⟨j, hj.trans hn, hlate⟩

theorem pumpSlotOutgoing_node {slot slot' : SessionSlot} {h h' : ProtocolHandle σ O M}
    (hpump : pumpSlotOutgoing slot h = some (slot', h')) : h'.node = h.node := by
  unfold pumpSlotOutgoing at hpump
  split at hpump
  · split at hpump
    · cases hpump
    · rename_i hnext
      cases hpump
      rcases nextOutgoing_cases hnext with ⟨_, -, -, rfl⟩ | ⟨-, rfl, -⟩ <;> rfl
    · rename_i hnext
      cases hpump
      rcases nextOutgoing_cases hnext with ⟨_, -, -, rfl⟩ | ⟨-, rfl, -⟩ <;> rfl
  · cases hpump
    rfl

/-- Once the start of the session is committed, a guardian keeps its thread, and the thread its
payloads. -/
theorem Acted.posted (hact : Acted u cfg sid p log v v') (hplaced : Placed u L log.length v)
    (honce : Once u L) (hlog : log <+: L) (hbegun : Begun u L sid v.pos)
    (hthread : v.thread = some t) :
    ∃ t', v'.thread = some t' ∧ t.handle.node.posted <+: t'.handle.node.posted := by
  cases hact with
  | spawned hwork hitem hstep hstarted hspawn =>
    obtain ⟨hnone, hsome⟩ := startedSession_eq_some hstarted
    rw [hplaced.db_eq] at hnone
    rw [hplaced.next_eq hlog hitem hstep] at hsome
    exact absurd hbegun (honce.not_begun hnone hsome)
  | submitted hwork ht hsubmit =>
    cases hthread.symm.trans ht
    obtain ⟨-, -, rfl⟩ := respond_eq_ok hsubmit
    exact ⟨_, rfl, List.prefix_rfl⟩
  | pumped hwork ht hpump =>
    cases hthread.symm.trans ht
    exact ⟨_, rfl, by rw [pumpSlotOutgoing_node hpump]⟩
  | reaped hwork ht hpump =>
    cases hthread.symm.trans ht
    exact ⟨_, rfl, by rw [pumpSlotOutgoing_node hpump]⟩
  | threaded ht hstep =>
    cases hthread.symm.trans ht
    exact ⟨_, rfl, hstep.posted⟩
  | rejected => exact ⟨t, hthread, List.prefix_rfl⟩
  | completed => exact ⟨t, hthread, List.prefix_rfl⟩
  | processed => exact ⟨t, hthread, List.prefix_rfl⟩
  | lost => exact ⟨t, hthread, List.prefix_rfl⟩
  | commit => exact ⟨t, hthread, List.prefix_rfl⟩
  | snapshot => exact ⟨t, hthread, List.prefix_rfl⟩
  | restart => exact ⟨t, hthread, List.prefix_rfl⟩

theorem Acted.pos_le (hact : Acted u cfg sid p log v v') : v.pos ≤ v'.pos := by
  cases hact with
  | rejected => exact Nat.le_succ _
  | commit => exact Nat.le_succ _
  | _ => exact Nat.le_refl _

theorem Issued.acted {n : Nat} {m : MpcRoundItem} (h : Issued u L sid n v m)
    (hact : Acted u cfg sid p log v v') (hplaced : Placed u L log.length v) (honce : Once u L)
    (hlog : log <+: L) : Issued u L sid n v' m := by
  refine ⟨h.begun.mono hact.pos_le, h.fresh_or_late.imp_left ?_⟩
  rintro ⟨t, payload, hthread, hposted, hm⟩
  obtain ⟨t', hthread', hgrows⟩ := hact.posted hplaced honce hlog h.begun hthread
  exact ⟨t', payload, hthread', getElem?_prefix_mono hgrows hposted, hm⟩

theorem mem_proposeRound {dbtx : Db} {slot : Option SessionSlot} {m : MpcRoundItem}
    (h : m ∈ proposeRound sid p dbtx slot) :
    ∃ session s payload i, dbtx.signingSession.get? sid = some session ∧ slot = some s ∧
      s.pendingOutgoing = some payload ∧ m = chunkItem sid session.round payload i := by
  unfold proposeRound at h
  split at h
  · cases h
  rename_i session hsession
  split at h
  · cases h
  split at h
  · cases h
  split at h
  · cases h
  rename_i payload hpending
  obtain ⟨s, hslot, hs⟩ := Option.bind_eq_some_iff.1 hpending
  obtain ⟨i, -, hi⟩ := List.mem_filterMap.1 h
  split at hi
  · cases hi
  · exact ⟨session, s, payload, i, hsession, hslot, hs, (Option.some.inj hi).symm⟩

/-- **A proposal is a piece of its round's payload, or late.** -/
theorem issued_of_proposeRound {n : Nat} {dbtx : Db} {m : MpcRoundItem}
    (hplaced : Placed u L n v) (he : Engaged u cfg L sid p v) (hsnapshot : v.snapshot = some dbtx)
    (hm : m ∈ proposeRound sid p dbtx v.slot) : Issued u L sid n v m ∧ m.sessionId = sid := by
  obtain ⟨session, slot, payload, i, hsession, hslot, hpending, rfl⟩ := mem_proposeRound hm
  obtain ⟨j, hj, rfl⟩ := hplaced.snapshot_eq dbtx hsnapshot
  obtain ⟨t, hthread, hparked, hreached⟩ := he.slot slot hslot
  have htaken : t.handle.taken <+: t.handle.node.posted := by
    rw [(he.signs t hthread).aligned.posted, List.append_assoc]
    exact List.prefix_append _ _
  have hposted : t.handle.node.posted[t.handle.submitted.length]? = some payload :=
    getElem?_prefix_mono htaken (hparked.pending.symm.trans hpending)
  have hle := hreached.highest j (hj.trans (pos_le_reach v)) session hsession
  refine ⟨⟨⟨j, hj, session, hsession⟩, ?_⟩, rfl⟩
  rcases Nat.eq_or_lt_of_le hle with heq | hlt
  · exact .inl ⟨t, payload, hthread, by rw [← heq] at hposted; exact hposted, rfl⟩
  · -- the thread is ahead of the database the proposal was made from
    obtain ⟨j', hj', session', hrow', hround'⟩ := hreached.seen
    exact .inr ⟨j', hj'.trans hplaced.reach_le, session', hrow', by rw [hround']; exact hlt⟩

/-! ## Runs of the federation -/

variable {honest : PeerId → Bool} {s s' : Federation S σ O M}

structure InStep (u : Usdt) (cfg : SigningConfig S σ O M Seed) (honest : PeerId → Bool)
    (sid : SigningSessionId) (L : List Item) (s : Federation S σ O M) : Prop where
  placed : ∀ p, Placed u L s.log.length (s.guardian p)
  engaged : ∀ p, Engaged u cfg L sid p (s.guardian p)
  proposed : ∀ m p, (m, p) ∈ s.proposed → Issued u L sid s.log.length (s.guardian p) m
  ordered : ∀ (i : Nat) (m : MpcRoundItem) (p : PeerId),
    s.log[i]? = some (.consensus (.mpcRound m) p) → m.sessionId = sid → honest p = true →
      Issued u L sid i (s.guardian p) m

theorem inStep_start :
    InStep u cfg honest sid L (Federation.start : Federation S σ O M) where
  placed _ := placed_start u L _
  engaged _ := engaged_start
  proposed _ _ h := by cases h
  ordered _ _ _ h := by cases h

theorem InStep.order (h : InStep u cfg honest sid L s) {item : Item}
    (hitem : s.orderable honest sid item = true) :
    InStep u cfg honest sid L { s with log := s.log ++ [item] } := by
  have hlen : s.log.length ≤ (s.log ++ [item]).length := by simp
  refine ⟨fun p => (h.placed p).mono hlen, h.engaged, fun m p hm => (h.proposed m p hm).mono hlen,
    fun i m p hi hid hp => ?_⟩
  have hi : (s.log ++ [item])[i]? = some (.consensus (.mpcRound m) p) := hi
  rcases Nat.lt_or_ge i s.log.length with hlt | hge
  · rw [List.getElem?_append_left hlt] at hi
    exact h.ordered i m p hi hid hp
  · rw [List.getElem?_append_right hge, List.getElem?_singleton] at hi
    split at hi
    · rename_i hzero
      cases hi
      obtain rfl : i = s.log.length := by omega
      simp only [Federation.orderable, hid, hp, decide_true, Bool.and_self, Bool.not_true,
        Bool.false_or, decide_eq_true_eq] at hitem
      exact h.proposed m p hitem
    · cases hi

/-- A step of one guardian. -/
theorem InStep.guardian (h : InStep u cfg honest sid L s) (p : PeerId) (v' : Guardian S σ O M)
    (hplaced : Placed u L s.log.length v') (hengaged : Engaged u cfg L sid p v')
    (hsent : ∀ n m, Issued u L sid n (s.guardian p) m → Issued u L sid n v' m) :
    InStep u cfg honest sid L { s with guardian := Function.update s.guardian p v' } := by
  have hcases : ∀ q, q = p ∧ Function.update s.guardian p v' q = v' ∨
      Function.update s.guardian p v' q = s.guardian q := by
    intro q
    by_cases hq : q = p
    · exact .inl ⟨hq, by rw [hq, Function.update_self]⟩
    · exact .inr (Function.update_of_ne hq _ _)
  have hmore : ∀ q n m, Issued u L sid n (s.guardian q) m →
      Issued u L sid n (Function.update s.guardian p v' q) m := by
    intro q n m hm
    rcases hcases q with ⟨rfl, heq⟩ | heq
    · rw [heq]
      exact hsent n m hm
    · rw [heq]
      exact hm
  refine ⟨fun q => ?_, fun q => ?_, fun m q hm => hmore q _ m (h.proposed m q hm),
    fun i m q hi hid hq => hmore q _ m (h.ordered i m q hi hid hq)⟩
  · show Placed u L s.log.length (Function.update s.guardian p v' q)
    rcases hcases q with ⟨-, heq⟩ | heq
    · rw [heq]
      exact hplaced
    · rw [heq]
      exact h.placed q
  · show Engaged u cfg L sid q (Function.update s.guardian p v' q)
    rcases hcases q with ⟨rfl, heq⟩ | heq
    · rw [heq]
      exact hengaged
    · rw [heq]
      exact h.engaged q

theorem InStep.propose (h : InStep u cfg honest sid L s) {dbtx : Db}
    (hsnapshot : (s.guardian p).snapshot = some dbtx) :
    InStep u cfg honest sid L { s with
      proposed := s.proposed ++ (proposeRound sid p dbtx (s.guardian p).slot).map (·, p)
      guardian := Function.update s.guardian p { s.guardian p with snapshot := none } } := by
  have hplaced := h.placed p
  have hengaged := h.engaged p
  have hstep := h.guardian p { s.guardian p with snapshot := none }
    ⟨hplaced.reach_le, hplaced.db_eq, hplaced.work_eq, fun db hdb => (by cases hdb)⟩
    ⟨hengaged.signs, hengaged.slot, hengaged.working, hengaged.completed⟩
    fun n m hm => ⟨hm.begun, hm.fresh_or_late⟩
  refine ⟨hstep.placed, hstep.engaged, fun m q hm => ?_, hstep.ordered⟩
  rcases List.mem_append.1 hm with hold | hnew
  · exact hstep.proposed m q hold
  · obtain ⟨m', hm', heq⟩ := List.mem_map.1 hnew
    cases heq
    have hsent := (issued_of_proposeRound hplaced hengaged hsnapshot hm').1
    simp only [Function.update_self]
    exact ⟨hsent.begun, hsent.fresh_or_late⟩

theorem InStep.step (h : InStep u cfg honest sid L s) (honce : Once u L)
    {a : FederationAction S Seed} (hstep : s.step u cfg honest sid a = some ((), s'))
    (hlog : s'.log <+: L) : InStep u cfg honest sid L s' := by
  cases a with
  | order item =>
    unfold Federation.step at hstep
    dsimp only at hstep
    split at hstep
    · rename_i hitem
      cases hstep
      exact h.order hitem
    · cases hstep
  | guardian p a =>
    unfold Federation.step at hstep
    dsimp only at hstep
    split at hstep
    · cases hstep
    · rename_i v hv
      cases hstep
      have hact := acted_of_act hv
      exact h.guardian p v ((h.placed p).acted hlog hact)
        ((h.engaged p).acted (h.placed p) honce hlog hact)
        fun n m hm => hm.acted hact (h.placed p) honce hlog
  | propose p =>
    unfold Federation.step at hstep
    dsimp only at hstep
    split at hstep
    · cases hstep
    · rename_i dbtx hsnapshot
      cases hstep
      exact h.propose hsnapshot

theorem log_grows {a : FederationAction S Seed} (hstep : s.step u cfg honest sid a = some ((), s')) :
    s.log <+: s'.log := by
  cases a with
  | order item =>
    unfold Federation.step at hstep
    dsimp only at hstep
    split at hstep
    · cases hstep
      exact List.prefix_append _ _
    · cases hstep
  | guardian p a =>
    unfold Federation.step at hstep
    dsimp only at hstep
    split at hstep
    · cases hstep
    · cases hstep
      exact List.prefix_rfl
  | propose p =>
    unfold Federation.step at hstep
    dsimp only at hstep
    split at hstep
    · cases hstep
    · cases hstep
      exact List.prefix_rfl

/-- **Every state of a run is in step with the log that the run ends with.** -/
theorem inStep_run {tr : List (FederationAction S Seed × Unit)}
    (hrun : Run (Steps (Federation.step u cfg honest sid)) Federation.start tr s)
    (honce : Once u s.log) : InStep u cfg honest sid s.log s := by
  have hall : ∀ L, Once u L → s.log <+: L → InStep u cfg honest sid L s := by
    intro L honce
    refine hrun.invariant (P := fun s => s.log <+: L → InStep u cfg honest sid L s)
      (fun _ => inStep_start) fun s a _ s' ih hstep hlog => ?_
    exact (ih ((log_grows hstep).trans hlog)).step honce hstep hlog
  exact hall s.log honce List.prefix_rfl

/-! ## Rounds are the signers' payloads -/

/-- A chunk that was in time is a piece of its round's payload. -/
theorem InStep.fresh (h : InStep u cfg honest sid s.log s) (honce : Once u s.log) {i : Nat}
    {m : MpcRoundItem} {q : PeerId} {session : SigningSession}
    (hitem : s.log[i]? = some (.consensus (.mpcRound m) q)) (hid : m.sessionId = sid)
    (hq : honest q = true) (hrow : u.sessionAt s.log sid i = some session)
    (hround : m.round = session.round) : Fresh (s.guardian q) m := by
  rcases (h.ordered i m q hitem hid hq).fresh_or_late with hfresh | ⟨j, hj, session', hrow', hlt⟩
  · exact hfresh
  · have hle := (honce.same hj hrow' hrow).round
    omega

/-- The chunks at the end of a round, of an honest signer. -/
theorem InStep.chunk (h : InStep u cfg honest sid s.log s) (honce : Once u s.log) {k i : Nat}
    {m : MpcRoundItem} {q q' : PeerId} {session : SigningSession} {c : MpcRoundChunk}
    (hitem : s.log[k]? = some (.consensus (.mpcRound m) q)) (hid : m.sessionId = sid)
    (hrow : u.sessionAt s.log sid k = some session) (hround : m.round = session.round)
    (hq' : honest q' = true)
    (hc : ((u.dbAt s.log k).storeChunk m q).mpcRoundChunk.get? ⟨sid, session.round, q', i⟩ =
      some c) :
    ∃ t payload, (s.guardian q').thread = some t ∧
      t.handle.node.posted[session.round]? = some payload ∧
      c.count = (chunkPayload payload).length ∧ c.bytes = (chunkPayload payload).getD i [] := by
  have hpiece : ∀ m' : MpcRoundItem, Fresh (s.guardian q') m' → m'.round = session.round →
      m'.chunk = i → c = ⟨m'.chunkCount, m'.payload⟩ →
      ∃ t payload, (s.guardian q').thread = some t ∧
        t.handle.node.posted[session.round]? = some payload ∧
        c.count = (chunkPayload payload).length ∧ c.bytes = (chunkPayload payload).getD i [] := by
    rintro m' ⟨t, payload, hthread, hposted, hm'⟩ hround' rfl rfl
    refine ⟨t, payload, hthread, hround' ▸ hposted, ?_, ?_⟩
    · exact congrArg MpcRoundItem.chunkCount hm'
    · exact congrArg MpcRoundItem.payload hm'
  have hins : ((u.dbAt s.log k).mpcRoundChunk.insert ⟨m.sessionId, m.round, q, m.chunk⟩
      ⟨m.chunkCount, m.payload⟩).get? ⟨sid, session.round, q', i⟩ = some c := hc
  rw [Table.get?_insert] at hins
  split at hins
  · rename_i hkey
    obtain ⟨-, -, rfl, hchunk⟩ := MpcRoundChunkKey.mk.inj hkey
    exact hpiece m (h.fresh honce hitem hid hq' hrow hround) hround hchunk
      (Option.some.inj hins).symm
  · obtain ⟨i', -, m', q₁, session', hitem', hkey, hval, hrow', hround'⟩ :=
      stored_chunk_ordered hins
    obtain ⟨hid', hround₁, rfl, hchunk⟩ := MpcRoundChunkKey.mk.inj hkey
    rw [← hid'] at hrow'
    exact hpiece m' (h.fresh honce hitem' hid'.symm hq' hrow' hround') hround₁.symm hchunk.symm hval

/-- **A round ends with the payloads of the signers' threads.** -/
theorem Decides.posted {r : Nat} {all : List Bytes} (hd : Decides u s.log sid r all)
    (h : InStep u cfg honest sid s.log s) (honce : Once u s.log) {j : Nat}
    {session : SigningSession} (hrow : u.sessionAt s.log sid j = some session) :
    ∃ payload : PeerId → Bytes, all = (session.signers.insertionSort (· ≤ ·)).map payload ∧
      ∀ q ∈ session.signers, honest q = true → ∃ t, (s.guardian q).thread = some t ∧
        t.handle.node.posted[r]? = some (payload q) := by
  obtain ⟨k, m, q, session', hitem, hid, hrow', rfl, hok, hcomplete, hall⟩ := hd
  have hsigners := honce.signers hrow hrow'
  obtain ⟨session₁, hrow₁, -, hround, hfits, -⟩ := processMpcRound_eq_ok_iff.1 hok
  rw [hid] at hrow₁
  cases hrow'.symm.trans hrow₁
  obtain ⟨tr, run⟩ := run_dbAt u s.log k
  have hinv : RoundInv ((u.dbAt s.log k).storeChunk m q) :=
    (run_roundInv run).storeChunk hfits (by rw [hid]; exact hrow') hround
  have hpeers : ∀ p ∈ session'.signers,
      ((u.dbAt s.log k).storeChunk m q).peerComplete sid session'.round p = true := by
    intro p hp
    rw [← hid, ← hround]
    exact List.all_eq_true.1 hcomplete p hp
  obtain ⟨payload, hpayload, hlist⟩ := hinv.reassemblePayloads hpeers
  refine ⟨payload, ?_, fun q' hq' hhonest => ?_⟩
  · rw [← hsigners]
    exact Except.ok.inj (hall.symm.trans hlist)
  · rw [← hsigners] at hq'
    obtain ⟨n, hpos, hstored, hcount⟩ := hinv.declared (hpeers q' hq')
    obtain ⟨c₀, hc₀⟩ := Option.isSome_iff_exists.1 ((hstored 0).2 hpos)
    obtain ⟨t, bytes, hthread, hposted, hn, -⟩ := h.chunk honce hitem hid hrow' hround hhonest hc₀
    refine ⟨t, hthread, ?_⟩
    have hreassemble : ((u.dbAt s.log k).storeChunk m q).reassemble sid session'.round q' =
        .ok (chunkPayload bytes).flatten := by
      refine reassemble_eq (chunkPayload bytes) (fun i c hc => ?_) fun i hi => ?_
      · obtain ⟨t', bytes', hthread', hposted', -, hbytes⟩ :=
          h.chunk honce hitem hid hrow' hround hhonest hc
        cases hthread.symm.trans hthread'
        cases hposted.symm.trans hposted'
        refine ⟨?_, hbytes⟩
        rw [← hn, hcount 0 c₀ hc₀]
        exact (hstored i).1 (by rw [hc]; rfl)
      · refine (hstored i).2 ?_
        rw [← hcount 0 c₀ hc₀, hn]
        exact hi
    rw [chunkPayload_flatten] at hreassemble
    rw [Except.ok.inj ((hpayload q' hq').symm.trans hreassemble)]
    exact hposted

theorem Signs.results_decided {k : Nat} {result : RoundResult} (hs : Signs u cfg L sid p t)
    (hresult : t.handle.results[k]? = some result) :
    ∃ all, result = .ok all ∧ Decides u L sid k all := by
  refine hs.decided k result (getElem?_prefix_mono ?_ hresult)
  rw [hs.aligned.answered]
  exact List.prefix_append _ _

/-- **Consensus is the exchange the signing protocol asks for.**  Guardians process the log at their
own pace, restart at any time, and propose from databases that lag behind their threads; whatever is
ordered, except in an honest guardian's name, is up to the adversary.  Still, what call `k` of the
exchange returns to a guardian is a list with a payload for each signer, the same list for every
guardian, and an honest signer's entry is the payload its own thread has made call `k` with.  This
rests on no two operations sharing a hash or a session id, and on the pool not being a deposit
account. -/
theorem consensus_exchange (u : Usdt) (cfg : SigningConfig S σ O M Seed) (honest : PeerId → Bool)
    (sid : SigningSessionId) {tr : List (FederationAction S Seed × Unit)} {s : Federation S σ O M}
    (hrun : Run (Steps (Federation.step u cfg honest sid)) Federation.start tr s)
    (hsep : Separate u (u.books (u.dbAt s.log s.log.length)))
    (hids : DistinctSessions u (u.dbAt s.log s.log.length)) {p : PeerId}
    {t : SignerThread S σ O M} (hthread : (s.guardian p).thread = some t) {k : Nat}
    {result : RoundResult} (hresult : t.handle.results[k]? = some result) :
    ∃ all, result = .ok all ∧ all.length = t.group.n ∧
      (∀ j session q, u.sessionAt s.log sid j = some session → q ∈ session.signers →
        honest q = true → ∃ t' payload, (s.guardian q).thread = some t' ∧
          t'.handle.node.posted[k]? = some payload ∧ all[t'.index.val]? = some payload) ∧
      ∀ q t' result', (s.guardian q).thread = some t' → t'.handle.results[k]? = some result' →
        result' = result := by
  have honce := Once.of_separate hsep hids
  have hstep := inStep_run hrun honce
  have hsigns := (hstep.engaged p).signs t hthread
  obtain ⟨all, rfl, hdecides⟩ := hsigns.results_decided hresult
  obtain ⟨j, session, hrow, hparty⟩ := hsigns.party
  refine ⟨all, rfl, ?_, fun j' session' q hrow' hmem hq => ?_,
    fun q t' result' hthread' hresult' => ?_⟩
  · obtain ⟨payload, hall, -⟩ := hdecides.posted hstep honce hrow
    rw [hall, List.length_map, hparty.group]
    rfl
  · obtain ⟨payload, hall, hposted⟩ := hdecides.posted hstep honce hrow'
    obtain ⟨t', hthread', hpayload⟩ := hposted q hmem hq
    obtain ⟨j₁, session₁, hrow₁, hparty₁⟩ := ((hstep.engaged q).signs t' hthread').party
    refine ⟨t', payload q, hthread', hpayload, ?_⟩
    rw [hall, List.getElem?_map, ← honce.signers hrow' hrow₁, getElem?_of_idxOf? hparty₁.index]
    rfl
  · obtain ⟨all', rfl, hdecides'⟩ :=
      ((hstep.engaged q).signs t' hthread').results_decided hresult'
    rw [hdecides'.unique honce hdecides]

/-! ### A sample -/

namespace Sample

/-- Two guardians, who both sign. -/
def duo : Usdt := { sampleUsdt with numPeers := ⟨2⟩ }

/-- Each broadcasts its seed. -/
def duoConfig : SigningConfig sampleSuite (List (ProceedResult Unit UInt8)) Unit UInt8 UInt8 where
  mpcEncryptionSk p := UInt8.ofNat (p + 1)
  machine := scripted
  msg := byteMessages
  packets := .ofList [⟨some [5], .empty⟩, ⟨some [6], .empty⟩]
  signing _ _ _ _ _ seed := [.sendMsg .allParties seed]

def both (item : UsdtConsensusItem) : List Item := [.consensus item 0, .consensus item 1]

/-- A deposit is credited, and its sweep waits for a signature. -/
def duoItems : List Item :=
  both (.blockCount 2) ++ both (.blockHash ⟨1, toyKeccak (toBeBytes 8 1)⟩) ++
    both (.feeVote ⟨1, 1⟩) ++ [deposit 1 50000 10000]

def duoSession : SigningSessionId :=
  sampleEvm.signingSessionId
    (sampleEvm.ethSignedMessageHash (sampleUsdt.opHash (sweep 50000 0))) 0

/-- A guardian processes the deposit and proposes its first payload. -/
def duoStarts (p : PeerId) (seed : UInt8) : List (FederationAction sampleSuite UInt8) :=
  (List.replicate 6 [.guardian p (.take seed), .guardian p .commit]).flatten ++
    [.guardian p (.take seed), .guardian p (.thread sampleRand), .guardian p (.thread sampleRand),
      .guardian p (.thread sampleRand), .guardian p .pump, .guardian p .commit,
      .guardian p .snapshot, .propose p]

/-- It processes both payloads and its thread gets the round. -/
def duoEnds (p : PeerId) : List (FederationAction sampleSuite UInt8) :=
  [.guardian p (.take 0), .guardian p .commit, .guardian p (.take 0), .guardian p .submit,
    .guardian p (.thread sampleRand)]

def duoActions : List (FederationAction sampleSuite UInt8) :=
  duoItems.map .order ++ duoStarts 0 5 ++ duoStarts 1 6 ++
    [.order (.consensus (.mpcRound (chunkItem duoSession 0 [] 0)) 0),
      .order (.consensus (.mpcRound (chunkItem duoSession 0 [0] 0)) 1)] ++ duoEnds 1 ++ duoEnds 0

/-- Whether the first guardian has a round of the session, and the operations are distinct. -/
def duoSigned (s : Federation sampleSuite (List (ProceedResult Unit UInt8)) Unit UInt8) : Bool :=
  ((s.guardian 0).thread.any fun t => (t.handle.results[0]?).isSome) &&
  ((duo.sessionAt s.log duoSession s.log.length).any fun t : SigningSession =>
    decide (1 ∈ t.signers)) &&
  decide (∀ r ∈ (duo.dbAt s.log s.log.length).depositRecord.rows, r.1 ≠ duo.poolAccount) &&
  decide (∀ q ∈ enqueued (duo.dbAt s.log s.log.length).history,
    ∀ q' ∈ enqueued (duo.dbAt s.log s.log.length).history, q = q')

theorem duo_run : ∃ tr s, Run (Steps (Federation.step duo duoConfig (fun _ => true) duoSession))
      Federation.start tr s ∧ Separate duo (duo.books (duo.dbAt s.log s.log.length)) ∧
    DistinctSessions duo (duo.dbAt s.log s.log.length) ∧
    (∃ t result, (s.guardian 0).thread = some t ∧ t.handle.results[0]? = some result) ∧
    ∃ session, duo.sessionAt s.log duoSession s.log.length = some session ∧
      1 ∈ session.signers := by
  obtain ⟨tr, s, hrun, hs⟩ := Run.exists_of_exec
    (Federation.step duo duoConfig (fun _ => true) duoSession) Federation.start duoActions
    (fun _ s => duoSigned s) (by decide +kernel)
  simp only [duoSigned, Bool.and_eq_true, Option.any_eq_true, decide_eq_true_eq,
    Option.isSome_iff_exists] at hs
  obtain ⟨⟨⟨⟨t, hthread, result, hresult⟩, session, hsession, hsigner⟩, hpool⟩, hone⟩ := hs
  refine ⟨tr, s, hrun, ?_, ?_, ⟨t, result, hthread, hresult⟩, session, hsession, hsigner⟩
  · exact separate_of_rows hpool fun q hq q' hq' _ => congrArg Prod.snd (hone q hq q' hq')
  · intro h hh h' hh' a a' _
    obtain ⟨q, hq, rfl⟩ := List.mem_map.1 hh
    obtain ⟨q', hq', rfl⟩ := List.mem_map.1 hh'
    exact congrArg Prod.fst (hone q hq q' hq')

end Sample

/-- The first guardian's round holds the second guardian's payload. -/
theorem consensus_exchange_sample :
    ∃ s : Federation sampleSuite (List (ProceedResult Unit UInt8)) Unit UInt8,
      ∃ t t' all payload, (s.guardian 0).thread = some t ∧ (s.guardian 1).thread = some t' ∧
        t.handle.results[0]? = some (.ok all) ∧ t'.handle.node.posted[0]? = some payload ∧
        all[t'.index.val]? = some payload := by
  obtain ⟨tr, s, hrun, hsep, hids, ⟨t, result, hthread, hresult⟩, session, hsession, hsigner⟩ :=
    Sample.duo_run
  obtain ⟨all, rfl, -, hposted, -⟩ := consensus_exchange Sample.duo Sample.duoConfig (fun _ => true)
    Sample.duoSession hrun hsep hids hthread hresult
  obtain ⟨t', payload, hthread', hpayload, hall⟩ := hposted _ session 1 hsession hsigner rfl
  exact ⟨s, t, t', all, payload, hthread, hthread', hresult, hpayload, hall⟩

/-! ## Lock-step -/

theorem signerSubset_nodup (u : Usdt) (digest : Hash) (attempt : Nat) :
    (u.signerSubset digest attempt).Nodup :=
  List.nodup_range.sublist (signerSubset_mem u digest attempt).1

/-- The signers in ascending order, each once. -/
theorem nodup_sorted_signers {k : Nat} {session : SigningSession}
    (hrow : u.sessionAt L sid k = some session) :
    (session.signers.insertionSort (· ≤ ·)).Nodup := by
  obtain ⟨tr, run⟩ := run_dbAt u L k
  refine ((List.perm_insertionSort _ _).nodup_iff).2 ?_
  rw [(run_docketed run).signers_eq hrow]
  exact signerSubset_nodup u _ _

theorem Signs.group_eq {t' : SignerThread S σ O M} {q : PeerId} (hs : Signs u cfg L sid p t)
    (hs' : Signs u cfg L sid q t') (honce : Once u L) : t'.group = t.group := by
  obtain ⟨j, session, hrow, hparty⟩ := hs.party
  obtain ⟨j', session', hrow', hparty'⟩ := hs'.party
  have hsigners := honce.signers hrow hrow'
  rw [hparty.group, hparty'.group]
  congr 1
  rw [hsigners]

/-- Different guardians are different parties. -/
theorem Signs.party_inj {t' : SignerThread S σ O M} {q : PeerId} (hs : Signs u cfg L sid p t)
    (hs' : Signs u cfg L sid q t') (honce : Once u L) (hindex : t'.index = t.index) : q = p := by
  obtain ⟨j, session, hrow, hparty⟩ := hs.party
  obtain ⟨j', session', hrow', hparty'⟩ := hs'.party
  have hplace := getElem?_of_idxOf? hparty'.index
  rw [honce.signers hrow hrow', hindex, getElem?_of_idxOf? hparty.index] at hplace
  exact (Option.some.inj hplace).symm

theorem Signs.index_lt (hs : Signs u cfg L sid p t) : t.index.val < t.group.n := by
  obtain ⟨j, session, hrow, hparty⟩ := hs.party
  rw [hparty.group]
  exact (List.getElem?_eq_some_iff.1 (getElem?_of_idxOf? hparty.index)).1

/-- The thread of the party at a position. -/
theorem Signs.at_position {k : Nat} {session : SigningSession} {q : PeerId} {i : PartyIndex}
    (hs : Signs u cfg L sid q t) (honce : Once u L)
    (hrow : u.sessionAt L sid k = some session)
    (hq : (session.signers.insertionSort (· ≤ ·))[i.val]? = some q) : t.index = i := by
  obtain ⟨j, session', hrow', hparty⟩ := hs.party
  have hplace := getElem?_of_idxOf? hparty.index
  rw [honce.signers hrow hrow', ← hq] at hplace
  refine Fin.ext ((List.getElem?_inj ?_ (nodup_sorted_signers hrow)).1 hplace)
  exact (List.getElem?_eq_some_iff.1 (hplace.trans hq)).1

/-- What a guardian's thread has gone through, as a run of the loop at its position; an empty run
where there is no thread. -/
theorem exists_view (h : InStep u cfg honest sid s.log s) (honce : Once u s.log)
    (hthread : (s.guardian p).thread = some t) (i : PartyIndex) :
    ∃ (sm : σ) (tr : List (DirectAction S × Obs M)) (w : Node σ O M),
      Direct t.group i (spawnProtocol sm : ProtocolHandle σ O M).node tr w ∧
      (∀ q t', (s.guardian q).thread = some t' → t'.index = i →
        sm = t'.spawned ∧ w = t'.handle.node ∧ answers tr = t'.handle.results) ∧
      ((∀ q t', (s.guardian q).thread = some t' → t'.index ≠ i) → tr = []) := by
  have hsigns := (h.engaged p).signs t hthread
  by_cases hi : ∃ q t', (s.guardian q).thread = some t' ∧ t'.index = i
  · obtain ⟨q, t', hthread', rfl⟩ := hi
    have hsigns' := (h.engaged q).signs t' hthread'
    obtain ⟨tr, hdirect, hanswers⟩ := hsigns'.direct
    rw [hsigns.group_eq hsigns' honce] at hdirect
    refine ⟨_, tr, _, hdirect, fun q₁ t₁ hthread₁ hindex => ?_, fun hno => ?_⟩
    · have hsigns₁ := (h.engaged q₁).signs t₁ hthread₁
      obtain rfl := hsigns'.party_inj hsigns₁ honce hindex
      cases hthread'.symm.trans hthread₁
      exact ⟨rfl, rfl, hanswers⟩
    · exact absurd rfl (hno q t' hthread')
  · refine ⟨t.handle.node.driver.sm, [], _, .start, fun q t' hthread' hindex => ?_, fun _ => rfl⟩
    exact absurd ⟨q, t', hthread', hindex⟩ hi

/-- A decided round is what every party has made that call with. -/
theorem Decides.answered {r : Nat} {all : List Bytes} (hd : Decides u s.log sid r all)
    (h : InStep u cfg honest sid s.log s) (honce : Once u s.log)
    (hhonest : ∀ j session q, u.sessionAt s.log sid j = some session → q ∈ session.signers →
      honest q = true)
    (hthread : (s.guardian p).thread = some t) {v : Mesh σ O M}
    (hv : ∀ q t', (s.guardian q).thread = some t' → v t'.index = t'.handle.node) :
    all = t.group.payloads v r ∧ t.group.allPosted v r = true := by
  obtain ⟨j, session, hrow, hparty⟩ := ((h.engaged p).signs t hthread).party
  obtain ⟨payload, hall, hposted⟩ := hd.posted h honce hrow
  have hn : t.group.n = (session.signers.insertionSort (· ≤ ·)).length := by
    rw [hparty.group]
    rfl
  have hat : ∀ (i : PartyIndex) (q : PeerId),
      (session.signers.insertionSort (· ≤ ·))[i.val]? = some q →
        (v i).posted[r]? = some (payload q) := by
    intro i q hq
    have hmem := (List.mem_insertionSort _).1 (List.mem_of_getElem? hq)
    obtain ⟨t', hthread', hpayload⟩ := hposted q hmem (hhonest j session q hrow hmem)
    have hindex := ((h.engaged q).signs t' hthread').at_position honce hrow hq
    rw [← hindex, hv q t' hthread']
    exact hpayload
  constructor
  · rw [hall]
    unfold Group.payloads parties
    refine List.ext_getElem? fun i => ?_
    rw [List.map_map, List.getElem?_map, List.getElem?_map, hn]
    rcases Nat.lt_or_ge i (session.signers.insertionSort (· ≤ ·)).length with hlt | hge
    · have hval : (Fin.ofNat (2 ^ 16) i : PartyIndex).val = i :=
        Nat.mod_eq_of_lt (hlt.trans hparty.small)
      rw [List.getElem?_range hlt, List.getElem?_eq_getElem hlt]
      have hposted := hat (Fin.ofNat (2 ^ 16) i)
        ((session.signers.insertionSort (· ≤ ·))[i]) (by rw [hval, List.getElem?_eq_getElem hlt])
      simp only [Option.map_some, Function.comp, hposted, Option.getD_some]
    · rw [List.getElem?_eq_none_iff.2 hge, List.getElem?_eq_none_iff.2 (by simpa using hge)]
      rfl
  · unfold Group.allPosted
    rw [List.all_eq_true]
    intro i hi
    have hlt := (mem_parties t.group.n_lt).1 hi
    rw [hn] at hlt
    have hposted := hat i _ (List.getElem?_eq_getElem hlt)
    exact decide_eq_true (List.getElem?_eq_some_iff.1 hposted).1

/-- **Honest signers sign as they would over a mesh.**  Where all signers are honest, the loops of
their threads are the parties of one run in which every call of the exchange hands everyone the
payloads of that same call at once.  It starts with the machines the threads were spawned with, each
of the session's signers and digest, and what a guardian has stored as the outcome is what its party
returns there. -/
theorem consensus_lockstep (u : Usdt) (cfg : SigningConfig S σ O M Seed) (honest : PeerId → Bool)
    (sid : SigningSessionId) {tr : List (FederationAction S Seed × Unit)} {s : Federation S σ O M}
    (hrun : Run (Steps (Federation.step u cfg honest sid)) Federation.start tr s)
    (hsep : Separate u (u.books (u.dbAt s.log s.log.length)))
    (hids : DistinctSessions u (u.dbAt s.log s.log.length))
    (hhonest : ∀ j session q, u.sessionAt s.log sid j = some session → q ∈ session.signers →
      honest q = true) {p : PeerId} {t : SignerThread S σ O M}
    (hthread : (s.guardian p).thread = some t) :
    ∃ init tr' v, Run (Steps t.group.step) (Group.start init) tr' v ∧
      (∀ q t', (s.guardian q).thread = some t' → t'.group = t.group ∧
        init t'.index = t'.spawned ∧ v t'.index = t'.handle.node ∧
        ∃ j session seed, u.sessionAt s.log sid j = some session ∧
          t'.spawned = cfg.signing (signingEid sid) t'.index
            (session.signers.insertionSort (· ≤ ·)) q session.digest seed) ∧
      ∀ q output, (s.guardian q).completed = some output →
        ∃ t', (s.guardian q).thread = some t' ∧ (v t'.index).phase = .returned output := by
  have honce := Once.of_separate hsep hids
  have hstep := inStep_run hrun honce
  have hsigns := (hstep.engaged p).signs t hthread
  choose sm trs v hdirect hview hempty using exists_view hstep honce hthread
  have hnode : ∀ q t', (s.guardian q).thread = some t' → v t'.index = t'.handle.node :=
    fun q t' hthread' => (hview t'.index q t' hthread' rfl).2.1
  have hviews : Views t.group sm trs v := by
    refine ⟨hdirect, fun i hi => hempty i fun q t' hthread' hindex => ?_, fun i k result hk => ?_⟩
    · have hsigns' := (hstep.engaged q).signs t' hthread'
      have hlt := hsigns'.index_lt
      rw [hsigns.group_eq hsigns' honce, hindex] at hlt
      omega
    · by_cases hi : ∀ q t', (s.guardian q).thread = some t' → t'.index ≠ i
      · rw [hempty i hi] at hk
        cases hk
      · push Not at hi
        obtain ⟨q, t', hthread', hindex⟩ := hi
        rw [(hview i q t' hthread' hindex).2.2] at hk
        obtain ⟨all, rfl, hdecides⟩ :=
          ((hstep.engaged q).signs t' hthread').results_decided hk
        obtain ⟨hall, hposted⟩ := hdecides.answered hstep honce hhonest hthread hnode
        exact ⟨congrArg Except.ok hall, hposted⟩
  obtain ⟨tr', hlock⟩ := lockstep_of_direct hviews
  refine ⟨sm, tr', v, hlock, fun q t' hthread' => ?_, fun q output hout => ?_⟩
  · have hsigns' := (hstep.engaged q).signs t' hthread'
    obtain ⟨j, session, hrow, hparty⟩ := hsigns'.party
    obtain ⟨seed, hmachine⟩ := hparty.machine
    exact ⟨hsigns.group_eq hsigns' honce, (hview t'.index q t' hthread' rfl).1,
      hnode q t' hthread', j, session, seed, hrow, hmachine⟩
  · obtain ⟨-, t', hthread', hphase⟩ := (hstep.engaged q).completed output hout
    exact ⟨t', hthread', by rw [hnode q t' hthread']; exact hphase⟩

theorem consensus_lockstep_sample :
    ∃ (s : Federation sampleSuite (List (ProceedResult Unit UInt8)) Unit UInt8) (t : _)
      (init : PartyIndex → List (ProceedResult Unit UInt8)) (tr' : _) (v : _),
      (s.guardian 0).thread = some t ∧ Run (Steps t.group.step) (Group.start init) tr' v ∧
        init t.index = t.spawned ∧ v t.index = t.handle.node := by
  obtain ⟨tr, s, hrun, hsep, hids, ⟨t, result, hthread, -⟩, -⟩ := Sample.duo_run
  obtain ⟨init, tr', v, hlock, hnode, -⟩ := consensus_lockstep Sample.duo Sample.duoConfig
    (fun _ => true) Sample.duoSession hrun hsep hids (fun _ _ _ _ _ => rfl) hthread
  obtain ⟨-, hinit, hv, -⟩ := hnode 0 t hthread
  exact ⟨s, t, init, tr', v, hthread, hlock, hinit, hv⟩

end Experimint.FedimintUsdt
