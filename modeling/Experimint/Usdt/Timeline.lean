import Experimint.Lib.Fifo
import Experimint.Lib.Replay
import Experimint.Usdt.Sessions

/-!
# A session along the log

Every guardian processes the items of one log, so what is stored of a session is a function of the
position in the log.  Along the log a session starts once, its round grows by one where a chunk
completes a round, and once it is dropped it does not come back.

* `Usdt.dbAt`, `Usdt.sessionAt` — what is stored at a position.
* `Reached` — the highest round up to a position.
* `Decides` — the payloads with which a round ends; `Decides.unique` says that there is one list.
* `stored_chunk_ordered` — a chunk that is stored was ordered while its round was open.
-/

set_option autoImplicit false

namespace Experimint.FedimintUsdt

variable {u : Usdt} {db db' : Db} {sid : SigningSessionId} {r : Nat} {p : PeerId}

/-! ## Reassembly of complete rounds -/

/-- Pieces `0, …, n - 1` and no others, put together. -/
theorem reassemble_eq (pieces : List Bytes)
    (honly : ∀ i c, db.mpcRoundChunk.get? ⟨sid, r, p, i⟩ = some c →
      i < pieces.length ∧ c.bytes = pieces.getD i [])
    (hall : ∀ i < pieces.length, (db.mpcRoundChunk.get? ⟨sid, r, p, i⟩).isSome = true) :
    db.reassemble sid r p = .ok pieces.flatten := by
  have hlength : (db.peerChunks sid r p).length = pieces.length := by
    refine length_peerChunks fun i => ⟨fun hi => ?_, hall i⟩
    obtain ⟨c, hc⟩ := Option.isSome_iff_exists.1 hi
    exact (honly i c hc).1
  have hpieces : ∀ i ∈ List.range pieces.length,
      chunkBytes (db.peerChunks sid r p) i = .ok (pieces.getD i []) := by
    intro i hi
    unfold chunkBytes
    split
    · rename_i q hq
      have hchunk : q.1.chunk = i := by simpa using List.find?_some hq
      have hc := (mem_peerChunks.1 (List.mem_of_find?_eq_some hq)).2
      rw [(honly _ _ hc).2, hchunk]
    · rename_i hnone
      obtain ⟨q, hq, hchunk⟩ := List.mem_map.1 (mem_chunk_indices.2 (hall i (List.mem_range.1 hi)))
      exact absurd hchunk (by simpa using List.find?_eq_none.1 hnone q hq)
  unfold Db.reassemble
  dsimp only
  rw [hlength, OpenRound.mapM_eq_ok hpieces, OpenRound.map_getD_range]
  rfl

theorem RoundInv.reassemble (hinv : RoundInv db) (hcomplete : db.peerComplete sid r p = true) :
    ∃ payload, db.reassemble sid r p = .ok payload := by
  obtain ⟨n, -, hstored, -⟩ := hinv.declared hcomplete
  let piece (i : Nat) : Bytes := ((db.mpcRoundChunk.get? ⟨sid, r, p, i⟩).map fun c => c.bytes).getD []
  refine ⟨_, reassemble_eq ((List.range n).map piece) (fun i c hc => ?_) fun i hi => ?_⟩
  · have hi : i < n := (hstored i).1 (by rw [hc]; rfl)
    simp [hi, piece, hc]
  · exact (hstored i).2 (by simpa using hi)

/-- The payloads of a complete round, in ascending order of the signers. -/
theorem RoundInv.reassemblePayloads (hinv : RoundInv db) {signers : List PeerId}
    (hcomplete : ∀ p ∈ signers, db.peerComplete sid r p = true) :
    ∃ payload : PeerId → Bytes, (∀ p ∈ signers, db.reassemble sid r p = .ok (payload p)) ∧
      db.reassemblePayloads sid r signers =
        .ok ((signers.insertionSort (· ≤ ·)).map payload) := by
  have hpayload : ∀ p ∈ signers,
      db.reassemble sid r p = .ok ((db.reassemble sid r p).toOption.getD []) := by
    intro p hp
    obtain ⟨payload, heq⟩ := hinv.reassemble (hcomplete p hp)
    rw [heq]
    rfl
  refine ⟨fun p => (db.reassemble sid r p).toOption.getD [], hpayload, ?_⟩
  have hsmall : ((signers.insertionSort (· ≤ ·)).any fun p => decide (MAX_MPC_ROUND_BYTES <
      ((db.peerChunks sid r p).map fun c => c.2.bytes.length).sum)) = false := by
    rw [List.any_eq_false]
    intro p _
    simpa using hinv.bytes sid r p
  unfold Db.reassemblePayloads
  dsimp only
  rw [hsmall, if_neg Bool.false_ne_true]
  exact OpenRound.mapM_eq_ok fun p hp => hpayload p ((List.mem_insertionSort _).1 hp)

/-! ## Positions -/

/-- What every guardian has stored after the first `k` items. -/
def Usdt.dbAt (u : Usdt) (log : List Item) (k : Nat) : Db := stateAt u.step Db.empty log k

def Usdt.sessionAt (u : Usdt) (log : List Item) (sid : SigningSessionId) (k : Nat) :
    Option SigningSession :=
  (u.dbAt log k).signingSession.get? sid

variable {log : List Item} {item : Item} {o : Answer} {i j k : Nat} {t t' : SigningSession}

theorem dbAt_rejected (hitem : log[k]? = some item) (h : u.step (u.dbAt log k) item = none) :
    u.dbAt log (k + 1) = u.dbAt log k :=
  (stateAt_succ hitem).trans (absorb_eq_of_none h)

theorem dbAt_accepted (hitem : log[k]? = some item)
    (h : u.step (u.dbAt log k) item = some (o, db')) : u.dbAt log (k + 1) = db' :=
  (stateAt_succ hitem).trans (absorb_eq_of_some h)

theorem run_between (u : Usdt) (log : List Item) (hjk : j ≤ k) :
    ∃ tr, Run (Accepts u) (u.dbAt log j) tr (u.dbAt log k) :=
  run_stateAt u.step Db.empty log hjk

theorem run_dbAt (u : Usdt) (log : List Item) (k : Nat) :
    ∃ tr, Run (Accepts u) Db.empty tr (u.dbAt log k) :=
  run_between u log (Nat.zero_le k)

/-- Operations and session ids along the log are distinct. -/
structure Once (u : Usdt) (log : List Item) : Prop where
  nodup : (u.dbAt log log.length).docket.enqueued.Nodup
  distinct : DistinctSessions u (u.dbAt log log.length)

theorem Once.of_separate (hsep : Separate u (u.books (u.dbAt log log.length)))
    (hids : DistinctSessions u (u.dbAt log log.length)) : Once u log := by
  obtain ⟨tr, run⟩ := run_dbAt u log log.length
  exact ⟨(run_enqueueInv run).nodup hsep, hids⟩

/-- They are distinct at every position. -/
theorem Once.before (h : Once u log) (k : Nat) :
    (u.dbAt log k).docket.enqueued.Nodup ∧ DistinctSessions u (u.dbAt log k) := by
  obtain ⟨tr, run⟩ := run_between u log (Nat.le_max_left k log.length)
  rw [show u.dbAt log (max k log.length) = u.dbAt log log.length from
    stateAt_of_length_le (Nat.le_max_right k log.length)] at run
  exact ⟨h.nodup.sublist (run_docketSteps run).grows.sublist, h.distinct.of_run run⟩

theorem Once.same (h : Once u log) (hjk : j ≤ k) (hj : u.sessionAt log sid j = some t)
    (hk : u.sessionAt log sid k = some t') : t.Same t' := by
  obtain ⟨tr₁, run₁⟩ := run_dbAt u log j
  obtain ⟨tr₂, run₂⟩ := run_between u log hjk
  obtain ⟨hnodup, hids⟩ := h.before k
  rcases session_kept_or_spent run₁ run₂ hnodup hids hj with ⟨t₂, hrow, hsame⟩ | ⟨hgone, -⟩
  · cases hrow.symm.trans hk
    exact hsame
  · cases hgone.symm.trans hk

theorem Once.gone (h : Once u log) (hij : i ≤ j) (hjk : j ≤ k)
    (hi : u.sessionAt log sid i = some t) (hj : u.sessionAt log sid j = none) :
    u.sessionAt log sid k = none := by
  obtain ⟨tr₁, run₁⟩ := run_dbAt u log i
  obtain ⟨tr₂, run₂⟩ := run_between u log hij
  obtain ⟨tr₃, run₃⟩ := run_between u log hjk
  obtain ⟨hnodup, hids⟩ := h.before k
  exact session_gone run₁ run₂ run₃ hnodup hids hi hj

/-- The signers of a session are the same at all positions. -/
theorem Once.signers (h : Once u log) (hj : u.sessionAt log sid j = some t)
    (hk : u.sessionAt log sid k = some t') : t'.signers = t.signers := by
  rcases Nat.le_total j k with hjk | hkj
  · exact (h.same hjk hj hk).signers
  · exact (h.same hkj hk hj).signers.symm

/-- The session has started by position `k`. -/
def Begun (u : Usdt) (log : List Item) (sid : SigningSessionId) (k : Nat) : Prop :=
  ∃ j ≤ k, ∃ t, u.sessionAt log sid j = some t

theorem Begun.mono (h : Begun u log sid j) (hjk : j ≤ k) : Begun u log sid k := by
  obtain ⟨i, hi, hrow⟩ := h
  exact ⟨i, hi.trans hjk, hrow⟩

/-- Where a session appears it was not there before. -/
theorem Once.not_begun (h : Once u log) (hk : u.sessionAt log sid k = none)
    (hnext : u.sessionAt log sid (k + 1) = some t) : ¬ Begun u log sid k := by
  rintro ⟨j, hjk, t₀, hj⟩
  cases (h.gone hjk (Nat.le_succ k) hj hk).symm.trans hnext

/-! ## Rounds -/

/-- The highest round up to position `k`. -/
structure Reached (u : Usdt) (log : List Item) (sid : SigningSessionId) (k r : Nat) : Prop where
  seen : ∃ j ≤ k, ∃ t, u.sessionAt log sid j = some t ∧ t.round = r
  highest : ∀ j ≤ k, ∀ t, u.sessionAt log sid j = some t → t.round ≤ r

theorem Reached.begun (h : Reached u log sid k r) : Begun u log sid k := by
  obtain ⟨j, hjk, t, hj, -⟩ := h.seen
  exact ⟨j, hjk, t, hj⟩

/-- A session that is there is at the highest round. -/
theorem Reached.round_eq (h : Reached u log sid k r) (honce : Once u log)
    (hk : u.sessionAt log sid k = some t) : t.round = r := by
  obtain ⟨j, hjk, t₀, hj, hround⟩ := h.seen
  have hle := (honce.same hjk hj hk).round
  have hge := h.highest k (Nat.le_refl k) t hk
  omega

/-- The highest round one position later. -/
theorem Reached.next (h : Reached u log sid k r)
    (hnext : ∀ t, u.sessionAt log sid (k + 1) = some t → t.round ≤ r) :
    Reached u log sid (k + 1) r := by
  obtain ⟨j, hjk, t, hj, hround⟩ := h.seen
  refine ⟨⟨j, Nat.le_succ_of_le hjk, t, hj, hround⟩, fun j' hj' t' hrow => ?_⟩
  rcases Nat.le_succ_iff.1 hj' with hle | rfl
  · exact h.highest j' hle t' hrow
  · exact hnext t' hrow

/-- A round ends by one. -/
theorem Reached.succ (h : Reached u log sid k r)
    (hnext : u.sessionAt log sid (k + 1) = some t) (hround : t.round = r + 1) :
    Reached u log sid (k + 1) (r + 1) := by
  refine ⟨⟨k + 1, Nat.le_refl _, t, hnext, hround⟩, fun j hj t' hrow => ?_⟩
  rcases Nat.le_succ_iff.1 hj with hle | rfl
  · exact Nat.le_succ_of_le (h.highest j hle t' hrow)
  · cases hnext.symm.trans hrow
    exact hround.le

/-- The first round. -/
theorem Reached.first (honce : Once u log) (hk : u.sessionAt log sid k = none)
    (hnext : u.sessionAt log sid (k + 1) = some t) (hround : t.round = 0) :
    Reached u log sid (k + 1) 0 := by
  refine ⟨⟨k + 1, Nat.le_refl _, t, hnext, hround⟩, fun j hj t' hrow => ?_⟩
  rcases Nat.le_succ_iff.1 hj with hle | rfl
  · exact absurd ⟨j, hle, t', hrow⟩ (honce.not_begun hk hnext)
  · cases hnext.symm.trans hrow
    exact hround.le

/-- A session that an item starts is at its first round. -/
theorem Accepts.round_zero (h : Accepts u db item o db') (hnone : db.signingSession.get? sid = none)
    (hsome : db'.signingSession.get? sid = some t) : t.round = 0 := by
  by_cases hitem : ∃ m q, item = .consensus (.mpcRound m) q
  · obtain ⟨m, q, rfl⟩ := hitem
    have hok : u.processMpcRound db m q = .ok db' := Accepts.consensus h
    obtain ⟨session, hsession, -, -, -, rfl⟩ := processMpcRound_eq_ok_iff.1 hok
    have hne : m.sessionId ≠ sid := by
      rintro rfl
      cases hnone.symm.trans hsession
    have hold : db.signingSession.get? sid = some t := by
      split at hsome
      · exact (Table.get?_insert_ne _ _ hne).symm.trans hsome
      · exact hsome
    cases hnone.symm.trans hold
  · rcases (Accepts.rounds h fun m q heq => hitem ⟨m, q, heq⟩).sessions sid t hsome with
      hzero | ⟨t₀, hold, -⟩
    · exact hzero
    · cases hnone.symm.trans hold

/-- A round ends with an accepted chunk that completes it. -/
theorem Accepts.round_ended (h : Accepts u db item o db') (hs : db.signingSession.get? sid = some t)
    (hs' : db'.signingSession.get? sid = some t') (hlt : t.round < t'.round) :
    ∃ m q, item = .consensus (.mpcRound m) q ∧ m.sessionId = sid ∧ m.round = t.round ∧
      Fits db m q ∧ (db.storeChunk m q).roundComplete m t = true := by
  by_cases hitem : ∃ m q, item = .consensus (.mpcRound m) q
  · obtain ⟨m, q, rfl⟩ := hitem
    have hok : u.processMpcRound db m q = .ok db' := Accepts.consensus h
    obtain ⟨session, hsession, -, hround, hfits, rfl⟩ := processMpcRound_eq_ok_iff.1 hok
    split at hs'
    · rename_i hcomplete
      have hins : (db.signingSession.insert m.sessionId _).get? sid = some t' := hs'
      rw [Table.get?_insert] at hins
      split at hins
      · rename_i hid
        subst hid
        cases hsession.symm.trans hs
        exact ⟨m, q, rfl, rfl, hround, hfits, hcomplete⟩
      · cases hs.symm.trans hins
        omega
    · cases hs.symm.trans hs'
      omega
  · rcases (Accepts.rounds h fun m q heq => hitem ⟨m, q, heq⟩).sessions sid t' hs' with
      hzero | ⟨t₀, ht₀, hround⟩
    · omega
    · cases hs.symm.trans ht₀
      omega

/-- A chunk that completes a round ends it. -/
theorem processMpcRound_ends {m : MpcRoundItem} {q : PeerId}
    (hok : u.processMpcRound db m q = .ok db') (hs : db.signingSession.get? m.sessionId = some t)
    (hcomplete : (db.storeChunk m q).roundComplete m t = true) :
    ∃ t', db'.signingSession.get? m.sessionId = some t' ∧ t'.round = t.round + 1 := by
  obtain ⟨session, hsession, -, -, -, rfl⟩ := processMpcRound_eq_ok_iff.1 hok
  cases hs.symm.trans hsession
  rw [if_pos hcomplete]
  exact ⟨_, Table.get?_insert_self _ _ _, rfl⟩

/-! ## Decisions -/

/-- The payloads with which round `r` ends, somewhere in the log. -/
def Decides (u : Usdt) (log : List Item) (sid : SigningSessionId) (r : Nat) (all : List Bytes) :
    Prop :=
  ∃ k m q t, log[k]? = some (.consensus (.mpcRound m) q) ∧ m.sessionId = sid ∧
    u.sessionAt log sid k = some t ∧ t.round = r ∧
    u.processMpcRound (u.dbAt log k) m q = .ok (u.dbAt log (k + 1)) ∧
    ((u.dbAt log k).storeChunk m q).roundComplete m t = true ∧
    ((u.dbAt log k).storeChunk m q).reassemblePayloads sid r t.signers = .ok all

/-- **A round ends with one list of payloads.** -/
theorem Decides.unique (honce : Once u log) {all all' : List Bytes} (h : Decides u log sid r all)
    (h' : Decides u log sid r all') : all = all' := by
  obtain ⟨k, m, q, t, hitem, rfl, hrow, hround, hok, hcomplete, hall⟩ := h
  obtain ⟨k', m', q', t', hitem', hid, hrow', hround', hok', hcomplete', hall'⟩ := h'
  obtain ⟨t₁, hrow₁, hround₁⟩ := processMpcRound_ends hok hrow hcomplete
  obtain ⟨t₁', hrow₁', hround₁'⟩ := processMpcRound_ends hok' (by rw [hid]; exact hrow') hcomplete'
  rw [hid] at hrow₁'
  -- after the position where it ends the round is over
  rcases Nat.lt_trichotomy k k' with hlt | rfl | hlt
  · have hle := (honce.same (Nat.succ_le_of_lt hlt) hrow₁ hrow').round
    omega
  · cases hrow.symm.trans hrow'
    have heq := Option.some.inj (hitem.symm.trans hitem')
    cases heq
    exact Except.ok.inj (hall.symm.trans hall')
  · have hle := (honce.same (Nat.succ_le_of_lt hlt) hrow₁' hrow).round
    omega

/-! ## Chunks -/

/-- What an item adds to the chunks. -/
theorem Accepts.chunk_origin (h : Accepts u db item o db') {key : MpcRoundChunkKey}
    {c : MpcRoundChunk} (hc : db'.mpcRoundChunk.get? key = some c) :
    db.mpcRoundChunk.get? key = some c ∨ ∃ m q t, item = .consensus (.mpcRound m) q ∧
      key = ⟨m.sessionId, m.round, q, m.chunk⟩ ∧ c = ⟨m.chunkCount, m.payload⟩ ∧
      db.signingSession.get? m.sessionId = some t ∧ m.round = t.round := by
  by_cases hitem : ∃ m q, item = .consensus (.mpcRound m) q
  · obtain ⟨m, q, rfl⟩ := hitem
    have hok : u.processMpcRound db m q = .ok db' := Accepts.consensus h
    obtain ⟨session, hsession, -, hround, -, rfl⟩ := processMpcRound_eq_ok_iff.1 hok
    have hc : (db.mpcRoundChunk.insert ⟨m.sessionId, m.round, q, m.chunk⟩
        ⟨m.chunkCount, m.payload⟩).get? key = some c := by
      split at hc <;> exact hc
    rw [Table.get?_insert] at hc
    split at hc
    · rename_i hkey
      exact .inr ⟨m, q, session, rfl, hkey.symm, (Option.some.inj hc).symm, hsession, hround⟩
    · exact .inl hc
  · left
    rcases (Accepts.rounds h fun m q heq => hitem ⟨m, q, heq⟩).chunks key.sessionId with
      hdropped | ⟨hkept, -⟩
    · cases (hdropped key rfl).symm.trans hc
    · exact (hkept key rfl).symm.trans hc

/-- **A chunk that is stored was ordered while its round was open.** -/
theorem stored_chunk_ordered {key : MpcRoundChunkKey} {c : MpcRoundChunk}
    (hc : (u.dbAt log k).mpcRoundChunk.get? key = some c) :
    ∃ i < k, ∃ m q t, log[i]? = some (.consensus (.mpcRound m) q) ∧
      key = ⟨m.sessionId, m.round, q, m.chunk⟩ ∧ c = ⟨m.chunkCount, m.payload⟩ ∧
      u.sessionAt log m.sessionId i = some t ∧ m.round = t.round := by
  induction k with
  | zero => cases hc
  | succ k ih =>
    have hbefore : (u.dbAt log k).mpcRoundChunk.get? key = some c →
        ∃ i < k + 1, ∃ m q t, log[i]? = some (.consensus (.mpcRound m) q) ∧
          key = ⟨m.sessionId, m.round, q, m.chunk⟩ ∧ c = ⟨m.chunkCount, m.payload⟩ ∧
          u.sessionAt log m.sessionId i = some t ∧ m.round = t.round := by
      intro hold
      obtain ⟨i, hi, hrest⟩ := ih hold
      exact ⟨i, Nat.lt_succ_of_lt hi, hrest⟩
    cases hitem : log[k]? with
    | none =>
      have hlen := List.getElem?_eq_none_iff.1 hitem
      have hsame : u.dbAt log (k + 1) = u.dbAt log k :=
        (stateAt_of_length_le (Nat.le_succ_of_le hlen)).trans (stateAt_of_length_le hlen).symm
      rw [hsame] at hc
      exact hbefore hc
    | some item =>
      cases hstep : u.step (u.dbAt log k) item with
      | none =>
        rw [dbAt_rejected hitem hstep] at hc
        exact hbefore hc
      | some next =>
        obtain ⟨o, db'⟩ := next
        rw [dbAt_accepted hitem hstep] at hc
        rcases Accepts.chunk_origin hstep hc with hold | ⟨m, q, t, rfl, hkey, hval, hrow, hround⟩
        · exact hbefore hold
        · exact ⟨k, Nat.lt_succ_self k, m, q, t, hitem, hkey, hval, hrow, hround⟩

end Experimint.FedimintUsdt
