import Experimint.Usdt.Accepted

/-!
# Chunks of a signing round

A signer's payload for a round travels in chunks, each an item of its own, and the round ends when
every signer's chunks are complete.  The chunks a peer has stored for a round are a partial function
of the chunk's index; the checks of `processMpcRound` are about that function (`Fits`).

* `peerComplete_iff` — completeness, for chunks that agree on their number.
* `delivered` — after any interleaving of honest chunks with foreign items, the stored chunks are
  exactly the delivered ones, and the round is open until the last of them.
-/

set_option autoImplicit false

namespace Experimint.FedimintUsdt

variable {u : Usdt} {db db' : Db} {sid : SigningSessionId} {r : Nat} {p : PeerId}

/-! ## Chunks of a peer -/

theorem mem_peerChunks {k : MpcRoundChunkKey} {c : MpcRoundChunk} :
    (k, c) ∈ db.peerChunks sid r p ↔
      k = ⟨sid, r, p, k.chunk⟩ ∧ db.mpcRoundChunk.get? ⟨sid, r, p, k.chunk⟩ = some c := by
  obtain ⟨sid', r', p', i⟩ := k
  simp only [Db.peerChunks, Table.scan, List.mem_filter, Table.mem_rows, Bool.and_eq_true,
    decide_eq_true_eq, MpcRoundChunkKey.mk.injEq, and_true]
  constructor
  · rintro ⟨hget, ⟨rfl, rfl⟩, rfl⟩
    exact ⟨⟨rfl, rfl, rfl⟩, hget⟩
  · rintro ⟨⟨rfl, rfl, rfl⟩, hget⟩
    exact ⟨hget, ⟨rfl, rfl⟩, rfl⟩

theorem nodup_peerChunks (db : Db) (sid : SigningSessionId) (r : Nat) (p : PeerId) :
    ((db.peerChunks sid r p).map fun q => q.1.chunk).Nodup := by
  unfold Db.peerChunks Table.scan
  rw [List.Nodup, List.pairwise_map, List.pairwise_filter]
  refine db.mpcRoundChunk.sorted.imp ?_
  rintro ⟨⟨_, _, _, _⟩, _⟩ ⟨⟨_, _, _, _⟩, _⟩ hlt ha hb hchunk
  simp only [Bool.and_eq_true, decide_eq_true_eq] at ha hb
  obtain ⟨⟨rfl, rfl⟩, rfl⟩ := ha
  obtain ⟨⟨rfl, rfl⟩, rfl⟩ := hb
  cases hchunk
  exact lt_irrefl _ hlt

theorem mem_chunk_indices {i : Nat} :
    i ∈ (db.peerChunks sid r p).map (fun q => q.1.chunk) ↔
      (db.mpcRoundChunk.get? ⟨sid, r, p, i⟩).isSome = true := by
  constructor
  · intro h
    obtain ⟨⟨k, c⟩, hmem, rfl⟩ := List.mem_map.1 h
    rw [(mem_peerChunks.1 hmem).2]
    rfl
  · intro h
    obtain ⟨c, hc⟩ := Option.isSome_iff_exists.1 h
    exact List.mem_map.2 ⟨(⟨sid, r, p, i⟩, c), mem_peerChunks.2 ⟨rfl, hc⟩, rfl⟩

theorem peerChunks_congr
    (h : ∀ i, db'.mpcRoundChunk.get? ⟨sid, r, p, i⟩ = db.mpcRoundChunk.get? ⟨sid, r, p, i⟩) :
    db'.peerChunks sid r p = db.peerChunks sid r p := by
  apply Table.scan_congr
  rintro ⟨sid', r', p', i⟩ hk
  simp only [Bool.and_eq_true, decide_eq_true_eq] at hk
  obtain ⟨⟨rfl, rfl⟩, rfl⟩ := hk
  exact h i

/-- Chunks `0, …, n - 1` and no others. -/
theorem length_peerChunks {n : Nat}
    (h : ∀ i, (db.mpcRoundChunk.get? ⟨sid, r, p, i⟩).isSome = true ↔ i < n) :
    (db.peerChunks sid r p).length = n := by
  have hperm : ((db.peerChunks sid r p).map fun q => q.1.chunk).Perm (List.range n) := by
    refine (List.perm_ext_iff_of_nodup (nodup_peerChunks db sid r p) List.nodup_range).2 ?_
    intro i
    rw [mem_chunk_indices, h, List.mem_range]
  simpa using hperm.length_eq

/-- A peer whose chunks agree on their number `n` is complete when it has all `n` of them. -/
theorem peerComplete_iff {n : Nat} (h : ∀ i c, db.mpcRoundChunk.get? ⟨sid, r, p, i⟩ = some c →
      c.count = n ∧ i < n) :
    db.peerComplete sid r p = true ↔
      0 < n ∧ ∀ i < n, (db.mpcRoundChunk.get? ⟨sid, r, p, i⟩).isSome = true := by
  have hany : ∀ i, ((db.peerChunks sid r p).any fun c => decide (c.1.chunk = i)) = true ↔
      (db.mpcRoundChunk.get? ⟨sid, r, p, i⟩).isSome = true := by
    intro i
    rw [← mem_chunk_indices, List.any_eq_true]
    simp only [List.mem_map, decide_eq_true_eq]
  unfold Db.peerComplete
  dsimp only
  split
  · rename_i hnil
    simp only [Bool.false_eq_true, false_iff, not_and]
    intro hpos hevery
    have hmem := mem_chunk_indices.2 (hevery 0 hpos)
    rw [hnil] at hmem
    cases hmem
  · rename_i k first rest hcons
    have hfirst := mem_peerChunks.1 (show (k, first) ∈ db.peerChunks sid r p by rw [hcons]; simp)
    obtain ⟨hcount, hlt⟩ := h _ _ hfirst.2
    rw [Bool.and_eq_true, decide_eq_true_eq, List.all_eq_true, hcount]
    constructor
    · rintro ⟨-, hevery⟩
      exact ⟨by omega, fun i hi => (hany i).1 (hevery i (List.mem_range.2 hi))⟩
    · rintro ⟨-, hevery⟩
      refine ⟨(length_peerChunks fun i => ⟨fun hi => ?_, hevery i⟩).symm, fun i hi =>
        (hany i).2 (hevery i (List.mem_range.1 hi))⟩
      obtain ⟨c, hc⟩ := Option.isSome_iff_exists.1 hi
      exact (h i c hc).2

/-! ## Payloads in chunks -/

theorem chunkPayload_pos (payload : Bytes) : 0 < (chunkPayload payload).length := by
  unfold chunkPayload MPC_ROUND_CHUNK_SIZE
  split
  · simp
  · rename_i h
    have hpos : 0 < payload.length := List.length_pos_iff.2 (by simpa using h)
    rw [length_chunksOf]
    omega

theorem chunkPayload_few {payload : Bytes} (h : payload.length ≤ MAX_MPC_ROUND_BYTES) :
    (chunkPayload payload).length ≤ MAX_MPC_CHUNKS := by
  unfold MAX_MPC_ROUND_BYTES at h
  unfold chunkPayload MPC_ROUND_CHUNK_SIZE MAX_MPC_CHUNKS
  split
  · simp
  · rw [length_chunksOf]
    omega

theorem chunkPayload_flatten (payload : Bytes) : (chunkPayload payload).flatten = payload := by
  unfold chunkPayload
  split
  · rename_i h
    simpa using h
  · exact flatten_chunksOf (by decide) payload

theorem chunkPayload_size (payload : Bytes) (i : Nat) :
    ((chunkPayload payload).getD i []).length ≤ MPC_ROUND_CHUNK_SIZE := by
  rw [List.getD_eq_getElem?_getD]
  cases hc : (chunkPayload payload)[i]? with
  | none => simp
  | some c =>
    have hmem := List.mem_of_getElem? hc
    unfold chunkPayload at hmem
    split at hmem
    · rw [List.mem_singleton.1 hmem]
      simp
    · exact length_le_of_mem_chunksOf hmem

/-! ## Interleavings -/

/-- Processes items in order; a rejected one leaves no trace. -/
def Usdt.deliver (u : Usdt) (db : Db) (xs : List (MpcRoundItem × PeerId)) : Db :=
  xs.foldl (fun db x => (u.processMpcRound db x.1 x.2).toOption.getD db) db

theorem deliver_append_singleton (db : Db) (xs : List (MpcRoundItem × PeerId))
    (x : MpcRoundItem × PeerId) :
    u.deliver db (xs ++ [x]) =
      (u.processMpcRound (u.deliver db xs) x.1 x.2).toOption.getD (u.deliver db xs) := by
  simp [Usdt.deliver]

/-- An open round: the session, and what each signer sends. -/
structure OpenRound where
  sid : SigningSessionId
  session : SigningSession
  payload : PeerId → Bytes
  small : ∀ p ∈ session.signers, (payload p).length ≤ MAX_MPC_ROUND_BYTES

namespace OpenRound

variable (R : OpenRound)

/-- Chunks of a signer's payload. -/
def pieces (p : PeerId) : List Bytes := chunkPayload (R.payload p)

def item (p : PeerId) (i : Nat) : MpcRoundItem := chunkItem R.sid R.session.round (R.payload p) i

/-- A signer's chunk. -/
def Honest (x : MpcRoundItem × PeerId) : Prop :=
  x.2 ∈ R.session.signers ∧ ∃ i < (R.pieces x.2).length, x.1 = R.item x.2 i

/-- An item of a non-signer, or for another session or round. -/
def Foreign (x : MpcRoundItem × PeerId) : Prop :=
  x.2 ∉ R.session.signers ∨ x.1.sessionId ≠ R.sid ∨ x.1.round ≠ R.session.round

/-- No chunk is missing. -/
def AllSent (xs : List (MpcRoundItem × PeerId)) : Prop :=
  ∀ p ∈ R.session.signers, ∀ i < (R.pieces p).length, (R.item p i, p) ∈ xs

/-- The stored chunks of the round are the delivered ones. -/
structure Stored (db : Db) (xs : List (MpcRoundItem × PeerId)) : Prop where
  sent : ∀ p ∈ R.session.signers, ∀ i < (R.pieces p).length, (R.item p i, p) ∈ xs →
    db.mpcRoundChunk.get? ⟨R.sid, R.session.round, p, i⟩ =
      some ⟨(R.pieces p).length, (R.pieces p).getD i []⟩
  only : ∀ p ∈ R.session.signers, ∀ i c,
    db.mpcRoundChunk.get? ⟨R.sid, R.session.round, p, i⟩ = some c →
      i < (R.pieces p).length ∧ (R.item p i, p) ∈ xs

variable {R} {xs : List (MpcRoundItem × PeerId)} {x : MpcRoundItem × PeerId}

theorem Foreign.not_honest (h : R.Foreign x) : ¬ R.Honest x := by
  rintro ⟨hsigner, i, -, hitem⟩
  rcases h with h | h | h
  · exact h hsigner
  · exact h (by rw [hitem]; rfl)
  · exact h (by rw [hitem]; rfl)

namespace Stored

theorem chunk (h : R.Stored db xs) {i : Nat} {c : MpcRoundChunk} (hp : p ∈ R.session.signers)
    (hc : db.mpcRoundChunk.get? ⟨R.sid, R.session.round, p, i⟩ = some c) :
    c = ⟨(R.pieces p).length, (R.pieces p).getD i []⟩ ∧ i < (R.pieces p).length := by
  obtain ⟨hi, hsent⟩ := h.only p hp i c hc
  exact ⟨Option.some.inj (hc.symm.trans (h.sent p hp i hi hsent)), hi⟩

/-- What a signer has stored is part of its payload. -/
theorem bytes_le (h : R.Stored db xs) (hp : p ∈ R.session.signers) (is : List Nat)
    (hnodup : (is ++ (db.peerChunks R.sid R.session.round p).map fun q => q.1.chunk).Nodup)
    (his : ∀ i ∈ is, i < (R.pieces p).length) :
    (is.map fun i => ((R.pieces p).getD i []).length).sum +
      ((db.peerChunks R.sid R.session.round p).map fun q => q.2.bytes.length).sum ≤
        MAX_MPC_ROUND_BYTES := by
  have hpiece : ∀ q ∈ db.peerChunks R.sid R.session.round p,
      q.2.bytes.length = ((R.pieces p).getD q.1.chunk []).length ∧
        q.1.chunk < (R.pieces p).length := by
    rintro ⟨k, c⟩ hq
    obtain ⟨hc, hlt⟩ := h.chunk hp (mem_peerChunks.1 hq).2
    exact ⟨by rw [hc], hlt⟩
  have hsum := sum_length_le_flatten (R.pieces p) hnodup (by
    intro i hi
    rcases List.mem_append.1 hi with hi | hi
    · exact his i hi
    · obtain ⟨q, hq, rfl⟩ := List.mem_map.1 hi
      exact (hpiece q hq).2)
  rw [List.map_append, List.sum_append, List.map_map] at hsum
  rw [List.map_congr_left fun q hq => (hpiece q hq).1]
  have hlen : (R.pieces p).flatten.length = (R.payload p).length := by
    rw [pieces, chunkPayload_flatten]
  exact (hsum.trans_eq hlen).trans (R.small p hp)

/-- The round is complete when no chunk is missing. -/
theorem roundComplete_iff (h : R.Stored db xs) (item : MpcRoundItem) (hsid : item.sessionId = R.sid)
    (hround : item.round = R.session.round) :
    db.roundComplete item R.session = true ↔ R.AllSent xs := by
  have hpeer : ∀ p ∈ R.session.signers, (db.peerComplete R.sid R.session.round p = true ↔
      ∀ i < (R.pieces p).length, (R.item p i, p) ∈ xs) := by
    intro p hp
    rw [peerComplete_iff (n := (R.pieces p).length) fun i c hc => by
      obtain ⟨rfl, hi⟩ := h.chunk hp hc
      exact ⟨rfl, hi⟩]
    constructor
    · rintro ⟨-, hevery⟩ i hi
      obtain ⟨c, hc⟩ := Option.isSome_iff_exists.1 (hevery i hi)
      exact (h.only p hp i c hc).2
    · intro hevery
      refine ⟨chunkPayload_pos _, fun i hi => ?_⟩
      rw [h.sent p hp i hi (hevery i hi)]
      rfl
  unfold Db.roundComplete
  rw [hsid, hround, List.all_eq_true]
  exact forall₂_congr hpeer

theorem fits (h : R.Stored db xs) {i : Nat} (hp : p ∈ R.session.signers)
    (hi : i < (R.pieces p).length) (hnew : (R.item p i, p) ∉ xs) : Fits db (R.item p i) p where
  index := hi
  size := chunkPayload_size _ _
  few := chunkPayload_few (R.small p hp)
  counts := by
    rintro ⟨k, c⟩ hq
    rw [(h.chunk hp (mem_peerChunks.1 hq).2).1]
    rfl
  bytes := by
    have hfresh : i ∉ (db.peerChunks R.sid R.session.round p).map fun q => q.1.chunk := by
      intro hmem
      obtain ⟨c, hc⟩ := Option.isSome_iff_exists.1 (mem_chunk_indices.1 hmem)
      exact hnew (h.only p hp i c hc).2
    have hle := h.bytes_le hp [i]
      (List.nodup_cons.2 ⟨hfresh, nodup_peerChunks db R.sid R.session.round p⟩) (by simpa using hi)
    rw [List.map_singleton, List.sum_singleton, Nat.add_comm] at hle
    exact hle
  new := by
    rw [Option.eq_none_iff_forall_ne_some]
    intro c hc
    exact hnew (h.only p hp i c hc).2

/-- A new chunk of a signer. -/
theorem store (h : R.Stored db xs) {i : Nat} (hi : i < (R.pieces p).length) :
    R.Stored (db.storeChunk (R.item p i) p) (xs ++ [(R.item p i, p)]) where
  sent p' hp' i' hi' hsent := by
    show (db.mpcRoundChunk.insert ⟨R.sid, R.session.round, p, i⟩ _).get? _ = _
    rw [Table.get?_insert]
    split
    · rename_i hkey
      cases hkey
      rfl
    · rename_i hkey
      rcases List.mem_append.1 hsent with hold | hnew
      · exact h.sent p' hp' i' hi' hold
      · obtain ⟨hitem, rfl⟩ := Prod.mk.inj (List.mem_singleton.1 hnew)
        have hchunk : i' = i := congrArg MpcRoundItem.chunk hitem
        exact absurd (by rw [hchunk]) hkey
  only p' hp' i' c hc := by
    have hc : (db.mpcRoundChunk.insert ⟨R.sid, R.session.round, p, i⟩
      ⟨(R.pieces p).length, (R.pieces p).getD i []⟩).get? ⟨R.sid, R.session.round, p', i'⟩ =
        some c := hc
    rw [Table.get?_insert] at hc
    split at hc
    · rename_i hkey
      cases hkey
      exact ⟨hi, by simp⟩
    · obtain ⟨hlt, hold⟩ := h.only p' hp' i' c hc
      exact ⟨hlt, List.mem_append_left _ hold⟩

/-- A foreign item or a repeated chunk adds nothing to what is delivered. -/
theorem append (h : R.Stored db xs) (hx : ¬ R.Honest x ∨ x ∈ xs) : R.Stored db (xs ++ [x]) where
  sent p hp i hi hsent := by
    apply h.sent p hp i hi
    rcases List.mem_append.1 hsent with hold | hnew
    · exact hold
    · obtain rfl := List.mem_singleton.1 hnew
      exact hx.resolve_left fun hno => hno ⟨hp, i, hi, rfl⟩
  only p hp i c hc := by
    obtain ⟨hlt, hold⟩ := h.only p hp i c hc
    exact ⟨hlt, List.mem_append_left _ hold⟩

theorem congr (h : R.Stored db xs)
    (hsame : ∀ p i, db'.mpcRoundChunk.get? ⟨R.sid, R.session.round, p, i⟩ =
      db.mpcRoundChunk.get? ⟨R.sid, R.session.round, p, i⟩) : R.Stored db' xs where
  sent p hp i hi hsent := (hsame p i).trans (h.sent p hp i hi hsent)
  only p hp i c hc := h.only p hp i c ((hsame p i).symm.trans hc)

end Stored

/-! ## The run of a round -/

/-- An open round in which `xs` were delivered. -/
structure Inbox (R : OpenRound) (db : Db) (xs : List (MpcRoundItem × PeerId)) : Prop where
  session : db.signingSession.get? R.sid = some R.session
  stored : R.Stored db xs

/-- A foreign item leaves the round as it is. -/
theorem Inbox.foreign (h : R.Inbox db xs) (hx : R.Foreign x)
    (hok : u.processMpcRound db x.1 x.2 = .ok db') : R.Inbox db' (xs ++ [x]) := by
  obtain ⟨session, hsession, hsigner, hround, -, rfl⟩ := processMpcRound_eq_ok_iff.1 hok
  have hother : x.1.sessionId ≠ R.sid := by
    intro heq
    cases (heq ▸ hsession : db.signingSession.get? R.sid = some session).symm.trans h.session
    rcases hx with hx | hx | hx
    · exact hx hsigner
    · exact hx heq
    · exact hx hround
  have hchunks : ∀ p i, (db.storeChunk x.1 x.2).mpcRoundChunk.get? ⟨R.sid, R.session.round, p, i⟩ =
      db.mpcRoundChunk.get? ⟨R.sid, R.session.round, p, i⟩ := by
    intro p i
    exact Table.get?_insert_ne _ _ fun hkey => hother (congrArg MpcRoundChunkKey.sessionId hkey)
  have hstored := h.stored.append (.inl hx.not_honest)
  split
  · refine ⟨?_, hstored.congr hchunks⟩
    exact (Table.get?_insert_ne _ _ hother).trans h.session
  · exact ⟨h.session, hstored.congr hchunks⟩

/-- A signer's new chunk is accepted, and ends the round if it is the last one missing. -/
theorem Inbox.honest (h : R.Inbox db xs) {i : Nat} (hp : p ∈ R.session.signers)
    (hi : i < (R.pieces p).length) (hnew : (R.item p i, p) ∉ xs) :
    ∃ db', u.processMpcRound db (R.item p i) p = .ok db' ∧
      R.Stored db' (xs ++ [(R.item p i, p)]) ∧
      (R.AllSent (xs ++ [(R.item p i, p)]) → db'.signingSession.get? R.sid =
        some { R.session with
          round := R.session.round + 1
          lastProgressBlock := u.consensusBlockCount db }) ∧
      (¬ R.AllSent (xs ++ [(R.item p i, p)]) → db'.signingSession.get? R.sid = some R.session) := by
  have hstored := h.stored.store (p := p) hi
  have hcomplete := hstored.roundComplete_iff (R.item p i) rfl rfl
  refine ⟨_, processMpcRound_eq_ok_iff.2 ⟨R.session, h.session, hp, rfl,
    h.stored.fits hp hi hnew, rfl⟩, ?_, ?_, ?_⟩
  · split
    · exact hstored.congr fun _ _ => rfl
    · exact hstored
  · intro hall
    rw [if_pos (hcomplete.2 hall)]
    exact Table.get?_insert_self _ _ _
  · intro hmissing
    rw [if_neg (mt hcomplete.1 hmissing)]
    exact h.session

/-- A repeated chunk is rejected. -/
theorem Inbox.repeated (h : R.Inbox db xs) (hx : R.Honest x) (hmem : x ∈ xs) :
    u.processMpcRound db x.1 x.2 ≠ .ok db' := by
  obtain ⟨hp, i, hi, hitem⟩ := hx
  intro hok
  obtain ⟨-, -, -, -, hfits, -⟩ := processMpcRound_eq_ok_iff.1 hok
  have hnew := hfits.new
  rw [hitem] at hnew
  have hsent : (R.item x.2 i, x.2) ∈ xs := by rw [← hitem]; exact hmem
  cases hnew.symm.trans (h.stored.sent x.2 hp i hi hsent)

/-- **While a chunk is missing, the round is open and holds exactly the delivered chunks.** -/
theorem delivered (hstart : R.Inbox db []) (hxs : ∀ x ∈ xs, R.Honest x ∨ R.Foreign x)
    (hmissing : ¬ R.AllSent xs) : R.Inbox (u.deliver db xs) xs := by
  -- over the items in order; a chunk missing at the end was missing all along
  induction xs using List.reverseRecOn with
  | nil => exact hstart
  | append_singleton xs x ih =>
    have hbefore : ¬ R.AllSent xs := fun hall =>
      hmissing fun p hp i hi => List.mem_append_left _ (hall p hp i hi)
    have hinbox := ih (fun y hy => hxs y (List.mem_append_left _ hy)) hbefore
    have hkeep : (¬ R.Honest x ∨ x ∈ xs) → R.Inbox (u.deliver db xs) (xs ++ [x]) :=
      fun hx => ⟨hinbox.session, hinbox.stored.append hx⟩
    rw [deliver_append_singleton]
    rcases hxs x (by simp) with hhonest | hforeign
    · by_cases hmem : x ∈ xs
      · cases hok : u.processMpcRound (u.deliver db xs) x.1 x.2 with
        | error e => exact hkeep (.inr hmem)
        | ok db' => exact absurd hok (hinbox.repeated hhonest hmem)
      · obtain ⟨hp, i, hi, hitem⟩ := hhonest
        have hx : x = (R.item x.2 i, x.2) := Prod.ext hitem rfl
        obtain ⟨db', hok, hstored, -, hopen⟩ := hinbox.honest (u := u) hp hi (hx ▸ hmem)
        rw [hitem, hok]
        rw [← hx] at hstored hopen
        exact ⟨hopen hmissing, hstored⟩
    · cases hok : u.processMpcRound (u.deliver db xs) x.1 x.2 with
      | error e => exact hkeep (.inl hforeign.not_honest)
      | ok db' => exact hinbox.foreign hforeign hok

/-! ## Reassembly -/

theorem mapM_eq_ok {α β : Type} {l : List α} {f : α → Except String β} {g : α → β}
    (h : ∀ a ∈ l, f a = .ok (g a)) : l.mapM f = .ok (l.map g) := by
  induction l with
  | nil => rfl
  | cons a l ih =>
    rw [List.mapM_cons, h a (by simp), ih fun b hb => h b (List.mem_cons_of_mem _ hb)]
    rfl

theorem map_getD_range {α : Type} (l : List α) (d : α) :
    (List.range l.length).map (fun i => l.getD i d) = l := by
  apply List.ext_getElem
  · simp
  · intro i h₁ h₂
    simp [h₂]

theorem Stored.reassemble (h : R.Stored db xs) (hall : R.AllSent xs) (hp : p ∈ R.session.signers) :
    db.reassemble R.sid R.session.round p = .ok (R.payload p) := by
  have hsent : ∀ i < (R.pieces p).length,
      db.mpcRoundChunk.get? ⟨R.sid, R.session.round, p, i⟩ =
        some ⟨(R.pieces p).length, (R.pieces p).getD i []⟩ :=
    fun i hi => h.sent p hp i hi (hall p hp i hi)
  have hlength : (db.peerChunks R.sid R.session.round p).length = (R.pieces p).length := by
    refine length_peerChunks fun i => ⟨fun hi => ?_, fun hi => by rw [hsent i hi]; rfl⟩
    obtain ⟨c, hc⟩ := Option.isSome_iff_exists.1 hi
    exact (h.only p hp i c hc).1
  have hpieces : ∀ i ∈ List.range (R.pieces p).length,
      chunkBytes (db.peerChunks R.sid R.session.round p) i = .ok ((R.pieces p).getD i []) := by
    intro i hi
    unfold chunkBytes
    split
    · rename_i q hq
      have hchunk : q.1.chunk = i := by simpa using List.find?_some hq
      have hc := (mem_peerChunks.1 (List.mem_of_find?_eq_some hq)).2
      rw [(h.chunk hp hc).1, hchunk]
    · rename_i hnone
      have hmem := mem_chunk_indices.2 (by rw [hsent i (List.mem_range.1 hi)]; rfl)
      obtain ⟨q, hq, hchunk⟩ := List.mem_map.1 hmem
      exact absurd hchunk (by simpa using List.find?_eq_none.1 hnone q hq)
  unfold Db.reassemble
  dsimp only
  rw [hlength, mapM_eq_ok hpieces, map_getD_range]
  exact congrArg Except.ok (chunkPayload_flatten _)

/-- **The payloads of a complete round are the ones that were sent**, in ascending order of the
signers. -/
theorem Stored.reassemblePayloads (h : R.Stored db xs) (hall : R.AllSent xs) :
    db.reassemblePayloads R.sid R.session.round R.session.signers =
      .ok ((R.session.signers.insertionSort (· ≤ ·)).map R.payload) := by
  have hmem : ∀ p ∈ R.session.signers.insertionSort (· ≤ ·), p ∈ R.session.signers := by
    intro p hp
    exact (List.mem_insertionSort _).1 hp
  have hsmall : ((R.session.signers.insertionSort (· ≤ ·)).any fun p =>
      decide (MAX_MPC_ROUND_BYTES < ((db.peerChunks R.sid R.session.round p).map
        fun c => c.2.bytes.length).sum)) = false := by
    rw [List.any_eq_false]
    intro p hp
    have hle := h.bytes_le (hmem p hp) [] (nodup_peerChunks _ _ _ _) (by simp)
    rw [List.map_nil, List.sum_nil, Nat.zero_add] at hle
    simpa using hle
  unfold Db.reassemblePayloads
  dsimp only
  rw [hsmall, if_neg Bool.false_ne_true]
  exact mapM_eq_ok fun p hp => h.reassemble hall (hmem p hp)

end OpenRound

end Experimint.FedimintUsdt
