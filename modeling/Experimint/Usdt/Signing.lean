import Mathlib.Data.Nat.Choose.Basic
import Experimint.Lib.Chunks
import Experimint.Usdt.Votes

/-!
# Signing sessions

A session collects a threshold signature over an operation's digest from a subset of the
guardians.  Attempts rotate through all subsets; a session that stalls is failed and the next
attempt started, and a verified signature moves the operation from pending to submitted.
The state machine of a guardian that takes part in a session is local and never touches the
database.
-/

set_option autoImplicit false

namespace Experimint.FedimintUsdt

def MPC_ROUND_CHUNK_SIZE : Nat := 30000

def MAX_MPC_ROUND_BYTES : Nat := 512 * 1024

def MAX_MPC_CHUNKS : Nat := 18

/-! ## Signer subsets -/

/-- Next index vector in lexicographic order: the rightmost position with room moves up by one and
the positions after it follow. -/
def advanceIndices (n t : Nat) (idx : List Nat) : Option (List Nat) :=
  match (List.range t).reverse.find? fun i => decide ((idx[i]?).getD 0 < i + n - t) with
  | none => none
  | some i =>
    let top := (idx[i]?).getD 0 + 1
    some (idx.take i ++ (List.range (t - i)).map (top + ·))

/-- The loop of `tCombinations`; `fuel` bounds the number of combinations. -/
def tCombinationsLoop {α : Type} (items : List α) (t : Nat) : Nat → List Nat → List (List α)
  | 0, _ => []
  | fuel + 1, idx =>
    idx.filterMap (fun i => items[i]?) ::
      match advanceIndices items.length t idx with
      | none => []
      | some idx' => tCombinationsLoop items t fuel idx'

/-- Every `t`-element combination of `items`, in lexicographic order of positions. -/
def tCombinations {α : Type} (items : List α) (t : Nat) : List (List α) :=
  if items.length < t then []
  else if t = 0 then [[]]
  else tCombinationsLoop items t (items.length.choose t) (List.range t)

/-- Signers of an attempt: a full-period walk over all combinations, offset by the digest. -/
def Usdt.signerSubset (u : Usdt) (digest : Hash) (attempt : Nat) : List PeerId :=
  let combos := tCombinations (List.range u.numPeers.total) u.numPeers.threshold
  let seed := digest.val / 2 ^ 192
  (combos[(seed + attempt) % combos.length]?).getD []

/-! ## Sessions -/

def Usdt.timedOut (u : Usdt) (db : Db) (session : SigningSession) : Bool :=
  decide (session.state = .inProgress) &&
    decide (satAdd64 session.lastProgressBlock u.timeoutBlocks < u.consensusBlockCount db)

/-- Starts an attempt unless it exists. -/
def Usdt.startSession (u : Usdt) (db : Db) (purpose : SigningPurpose) (digest : Hash)
    (attempt : Nat) : Db :=
  let sessionId := u.evm.signingSessionId digest attempt
  if db.signingSession.contains sessionId then db
  else
    { db with
      signingSession := db.signingSession.insert sessionId
        { purpose := purpose
          digest := digest
          signers := u.signerSubset digest attempt
          round := 0
          state := .inProgress
          attempt := attempt
          lastProgressBlock := u.consensusBlockCount db } }

/-- Drops the round chunks of a session. -/
def Db.removeChunks (db : Db) (sessionId : SigningSessionId) : Db :=
  { db with
    mpcRoundChunk := db.mpcRoundChunk.eraseWhere fun k => decide (k.sessionId = sessionId) }

/-- Drops every attempt at signing an operation, with its chunks. -/
def removeSigningSessionsForOp (db : Db) (opHash : Hash) : Db :=
  let sessions := db.signingSession.rows.filter fun r => decide (r.2.purpose = .userOp opHash)
  sessions.foldl
    (fun db r => { db.removeChunks r.1 with signingSession := db.signingSession.erase r.1 }) db

/-! ## Rounds -/

/-- Splits a round's payload; an empty one is a single empty chunk. -/
def chunkPayload (payload : Bytes) : List Bytes :=
  if payload.isEmpty then [[]] else chunksOf MPC_ROUND_CHUNK_SIZE payload

/-- What a signer proposes for chunk `i` of its payload. -/
def chunkItem (sessionId : SigningSessionId) (round : Nat) (payload : Bytes) (i : Nat) :
    MpcRoundItem where
  sessionId := sessionId
  round := round
  chunk := i
  chunkCount := (chunkPayload payload).length
  payload := (chunkPayload payload).getD i []

/-- Chunks a peer has sent for a round, in chunk order. -/
def Db.peerChunks (db : Db) (sessionId : SigningSessionId) (round : Nat) (peer : PeerId) :
    List (MpcRoundChunkKey × MpcRoundChunk) :=
  db.mpcRoundChunk.scan fun k =>
    decide (k.sessionId = sessionId) && decide (k.round = round) && decide (k.peer = peer)

/-- Whether a peer's chunks are exactly the ones its first chunk announces. -/
def Db.peerComplete (db : Db) (sessionId : SigningSessionId) (round : Nat) (peer : PeerId) : Bool :=
  let chunks := db.peerChunks sessionId round peer
  match chunks with
  | [] => false
  | (_, first) :: _ =>
    decide (first.count = chunks.length) &&
      (List.range first.count).all fun i => chunks.any fun c => decide (c.1.chunk = i)

/-- Bytes of chunk `i`, which a complete peer has. -/
def chunkBytes (chunks : List (MpcRoundChunkKey × MpcRoundChunk)) (i : Nat) :
    Except String Bytes :=
  match chunks.find? fun c => decide (c.1.chunk = i) with
  | some c => .ok c.2.bytes
  | none => .error "chunks 0..len were just confirmed present"

/-- A peer's payload, put together from its chunks in order. -/
def Db.reassemble (db : Db) (sessionId : SigningSessionId) (round : Nat) (peer : PeerId) :
    Except String Bytes :=
  let chunks := db.peerChunks sessionId round peer
  ((List.range chunks.length).mapM (chunkBytes chunks)).map List.flatten

/-- Payloads of a completed round, as the signers' state machines take them. -/
def Db.reassemblePayloads (db : Db) (sessionId : SigningSessionId) (round : Nat)
    (signers : List PeerId) : Except String (List Bytes) :=
  let signers := signers.insertionSort (· ≤ ·)
  if signers.any fun p => decide (MAX_MPC_ROUND_BYTES <
      ((db.peerChunks sessionId round p).map fun c => c.2.bytes.length).sum) then
    .error ("reassembled MpcRound payload exceeds MAX_MPC_ROUND_BYTES; skipping local signer " ++
      "submission for this round (insert-time caps should make this unreachable)")
  else signers.mapM (db.reassemble sessionId round)

def Usdt.processMpcRound (u : Usdt) (db : Db) (item : MpcRoundItem) (peerId : PeerId) :
    Except String Db :=
  match db.signingSession.get? item.sessionId with
  | none => .error "MpcRound for unknown signing session"
  | some session =>
    if peerId ∉ session.signers then
      .error "MpcRound from a peer outside the session's signer subset"
    else if item.round ≠ session.round then .error "MpcRound for a stale or future round"
    else if ¬ (1 ≤ item.chunkCount ∧ item.chunk < item.chunkCount) then
      .error "MpcRound with an out-of-range chunk index or a zero chunk count"
    else if MPC_ROUND_CHUNK_SIZE < item.payload.length then
      .error "MpcRound chunk payload exceeds MPC_ROUND_CHUNK_SIZE"
    else if MAX_MPC_CHUNKS < item.chunkCount then
      .error "MpcRound chunk_count exceeds MAX_MPC_CHUNKS"
    else
      let existing := db.peerChunks item.sessionId item.round peerId
      if existing.any fun c => decide (c.2.count ≠ item.chunkCount) then
        .error "MpcRound chunk_count inconsistent with prior chunks from this peer"
      else if MAX_MPC_ROUND_BYTES <
          (existing.map fun c => c.2.bytes.length).sum + item.payload.length then
        .error "MpcRound cumulative bytes exceed MAX_MPC_ROUND_BYTES"
      else
        let key : MpcRoundChunkKey := ⟨item.sessionId, item.round, peerId, item.chunk⟩
        if db.mpcRoundChunk.contains key then .error "redundant MpcRound chunk"
        else
          let db := { db with
            mpcRoundChunk := db.mpcRoundChunk.insert key ⟨item.chunkCount, item.payload⟩ }
          if session.signers.all fun p => db.peerComplete item.sessionId item.round p then
            .ok { db with
              signingSession := db.signingSession.insert item.sessionId
                { session with
                  round := session.round + 1
                  lastProgressBlock := u.consensusBlockCount db } }
          else .ok db

/-- Fails a stalled attempt and starts the next one. -/
def Usdt.processRotateSigning (u : Usdt) (db : Db) (sessionId : SigningSessionId) :
    Except String Db :=
  match db.signingSession.get? sessionId with
  | none => .error "RotateSigning for unknown signing session"
  | some session =>
    if session.state ≠ .inProgress then .error "RotateSigning for a non-in-progress session"
    else if !u.timedOut db session then
      .error "RotateSigning for a session that has not timed out"
    else
      let db := { db with
        signingSession := db.signingSession.insert sessionId { session with state := .failed } }
      .ok (u.startSession (db.removeChunks sessionId) session.purpose session.digest
        (session.attempt + 1))

/-! ## Finalization -/

/-- Completes the session and moves its operation from pending to submitted. -/
def Usdt.finalizeUserOp (u : Usdt) (db : Db) (sessionId : SigningSessionId)
    (session : SigningSession) (signature : Bytes) (pending : PendingUserOp) (ethSig : Bytes) :
    Db :=
  let opHash := session.purpose.opHash
  let db := { db with
    signingSession := db.signingSession.insert sessionId
      { session with state := .completed signature }
    submittedUserOp := db.submittedUserOp.insert opHash
      { signed := ⟨pending.op, ethSig⟩
        purpose := pending.purpose
        submittedBlock := u.consensusBlockCount db
        superseded := false }
    pendingUserOp := db.pendingUserOp.erase opHash }
  (db.removeChunks sessionId).record (.userOpFinalized opHash)

/-- Accepts a signature that verifies and that a pending operation is waiting for. -/
def Usdt.processMpcSignature (u : Usdt) (db : Db) (sessionId : SigningSessionId)
    (signature : Bytes) : Except String Db :=
  match db.signingSession.get? sessionId with
  | none => .error "MpcSignature for unknown signing session"
  | some session =>
    if session.state.isCompleted then .error "redundant MpcSignature"
    else if !u.evm.isCompact signature then .error "malformed signature"
    else if !u.evm.verifyEcdsa session.digest signature u.cfg.groupPublicKey then
      .error "MpcSignature does not verify against the group key"
    else
      let opHash := session.purpose.opHash
      let shownSession := debugHash sessionId
      let shownOp := debugHash opHash
      match db.pendingUserOp.get? opHash with
      | none =>
        .error (s!"MpcSignature for session SigningSessionId({shownSession}) (op_hash {shownOp}) " ++
          "has no live PendingUserOp backing it -- refusing to finalize an unauthorized signature")
      | some pending =>
        if signature.length ≠ 64 then
          .error "MPC signature is not the expected 64-byte compact length"
        else
          match u.assembleEthSignature signature session.digest u.owner with
          | .error err =>
            .error ("failed to assemble the Ethereum signature for completed UserOp session " ++
              s!"SigningSessionId({shownSession}) (op_hash {shownOp}): {err}")
          | .ok ethSig => .ok (u.finalizeUserOp db sessionId session signature pending ethSig)

end Experimint.FedimintUsdt
