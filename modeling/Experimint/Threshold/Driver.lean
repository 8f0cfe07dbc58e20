import Experimint.Lib.Run
import Experimint.Threshold.Codec

/-!
# Driving state machines over an exchange

Every party runs a state machine that sends, yields or asks for a message.  What it sends is
buffered; when it asks with an empty queue the party calls the exchange with a sealed payload and
queues what the others' payloads of the same call hold.  The parties interleave freely: a call
returns once every party has made that call, and a fast party may be one call ahead.

* `Node` — one party: its loop variables, and its calls of the exchange.
* `emitted`, `handed`, `delivered` — what a party's log says about its messages.
* `Kept` — how a party's variables and payloads follow from its log; `kept_run` is the induction.
* `driver_delivers` — each queue is what the others emitted to this party since the last exchange.
-/

set_option autoImplicit false

namespace Experimint.ThresholdEcdsa

/-! ## State machines -/

inductive MessageDestination where
  | allParties
  | oneParty (j : PartyIndex)
deriving DecidableEq

inductive MessageType where
  | broadcast
  | p2p
deriving DecidableEq

structure Incoming (M : Type) where
  id : Nat
  sender : PartyIndex
  msgType : MessageType
  msg : M
deriving DecidableEq

inductive ProceedResult (O M : Type) where
  | output (out : O)
  | error (err : String)
  | yielded
  | sendMsg (recipient : MessageDestination) (msg : M)
  | needsOneMoreMessage

structure StateMachine (σ O M : Type) where
  proceed : σ → ProceedResult O M × σ
  receivedMsg : σ → Incoming M → Except (Incoming M) σ

/-! ## One party -/

/-- Variables of the loop.  Message numbers are natural numbers: the 64-bit counter of the source
could only wrap after that many messages. -/
structure Driver (σ M : Type) where
  sm : σ
  broadcastOut : Option M
  p2pOut : Table PartyIndex M
  incoming : List (Incoming M)
  nextId : Nat
  round : Round

inductive Phase (O : Type) where
  | running
  /-- In a call of the exchange, with `we_sent_something`. -/
  | exchanging (weSentSomething : Bool)
  | returned (result : Except String O)

/-- A party with its calls of the exchange: the payloads it has handed over, oldest first, and how
many of the calls have returned. -/
structure Node (σ O M : Type) where
  driver : Driver σ M
  phase : Phase O
  posted : List Bytes
  collected : Nat

/-- What is seen of a party's step. -/
inductive Obs (M : Type) where
  | quiet
  | emitted (recipient : MessageDestination) (msg : M)
  | handed (m : Incoming M)
  | posted
  | delivered (queue : List (Incoming M))
  | ended
deriving DecidableEq

/-- Parties with one domain and each other's public keys. -/
structure Group (S : Suite) (σ O M : Type) where
  n : Nat
  n_lt : n < 2 ^ 16
  machine : StateMachine σ O M
  codec : PartyIndex → EncryptedRoundCodec S
  msg : Serializer M
  packets : Serializer RoundPacket
  myIndex_eq : ∀ i, (codec i).myIndex = i
  domain_eq : ∀ i j, (codec i).domain = (codec j).domain
  partyPubkeys_eq : ∀ i j, j.val < n →
    (codec i).partyPubkeys[j.val]? = some (S.publicKey (codec j).mySecret)

/-- The parties in ascending order. -/
def parties (n : Nat) : List PartyIndex := (List.range n).map (Fin.ofNat (2 ^ 16))

section Loop

variable {S : Suite} {σ O M : Type}

/-- Buffers an outgoing message; an earlier one to the same destination is overwritten. -/
def Driver.buffer (d : Driver σ M) : MessageDestination → M → Driver σ M
  | .allParties, m => { d with broadcastOut := some m }
  | .oneParty j, m => { d with p2pOut := d.p2pOut.insert j m }

def Driver.weSentSomething (d : Driver σ M) : Bool :=
  d.broadcastOut.isSome || !d.p2pOut.rows.isEmpty

/-- One pass of the loop, up to the call of the exchange. -/
def Node.advance (g : Group S σ O M) (i : PartyIndex) (rand : SealRandomness S) (v : Node σ O M) :
    Obs M × Node σ O M :=
  let (result, sm) := g.machine.proceed v.driver.sm
  let d := { v.driver with sm := sm }
  match result with
  | .output out => (.ended, { v with driver := d, phase := .returned (.ok out) })
  | .error err =>
    (.ended, { v with
      driver := d
      phase := .returned (.error ("mpc state machine failed: " ++ err)) })
  | .yielded => (.quiet, { v with driver := d })
  | .sendMsg recipient m => (.emitted recipient m, { v with driver := d.buffer recipient m })
  | .needsOneMoreMessage =>
    match d.incoming with
    | m :: incoming =>
      match g.machine.receivedMsg d.sm m with
      | .ok sm => (.handed m, { v with driver := { d with sm := sm, incoming := incoming } })
      | .error rejected =>
        (.handed m, { v with
          driver := { d with incoming := incoming }
          phase := .returned (.error ("state machine rejected message from party " ++
            toString rejected.sender.val ++ " (round " ++ toString d.round.val ++ ")")) })
    | [] =>
      match (g.codec i).sealRound g.msg g.packets rand d.round d.broadcastOut d.p2pOut with
      | .error _ =>
        (.ended, { v with driver := d, phase := .returned (.error "sealing round payload") })
      | .ok payload =>
        (.posted, { v with
          driver := { d with broadcastOut := none, p2pOut := .empty }
          phase := .exchanging d.weSentSomething
          posted := v.posted ++ [payload] })

def Driver.push (d : Driver σ M) (sender : PartyIndex) (msgType : MessageType) (m : M) :
    Driver σ M :=
  { d with
    incoming := d.incoming ++ [⟨d.nextId, sender, msgType, m⟩]
    nextId := d.nextId + 1 }

/-- Queues what one sender's payload holds. -/
def Driver.take (d : Driver σ M) (sender : PartyIndex) (opened : OpenedRound M) : Driver σ M :=
  let d := match opened.broadcast with
    | some b => d.push sender .broadcast b
    | none => d
  match opened.p2pToMe with
  | some p => d.push sender .p2p p
  | none => d

/-- The loop over the senders, with `received_something`. -/
def Driver.receive (g : Group S σ O M) (me : PartyIndex) (all : List Bytes) :
    List PartyIndex → Driver σ M → Bool → Except String (Driver σ M × Bool)
  | [], d, received => .ok (d, received)
  | sender :: rest, d, received =>
    if sender = me then receive g me all rest d received
    else
      match all[sender.val]? with
      | none => .error "RoundExchange returned too few payloads"
      | some payload =>
        match (g.codec me).openRound g.msg g.packets d.round sender payload with
        | .error _ => .error ("opening round payload from party " ++ toString sender.val)
        | .ok opened =>
          receive g me all rest (d.take sender opened)
            (received || opened.broadcast.isSome || opened.p2pToMe.isSome)

/-- The rest of the pass, when the exchange has returned everyone's payload. -/
def Node.collect (g : Group S σ O M) (i : PartyIndex) (v : Node σ O M) (weSentSomething : Bool)
    (all : List Bytes) : Obs M × Node σ O M :=
  match v.driver.receive g i all (parties g.n) false with
  | .error e => (.ended, { v with phase := .returned (.error e) })
  | .ok (d, received) =>
    if !weSentSomething && !received then
      (.delivered d.incoming, { v with
        driver := d
        phase := .returned (.error ("no progress in exchange round " ++ toString d.round.val ++
          ": a peer withheld or omitted an expected message")) })
    else
      (.delivered d.incoming, { v with
        driver := { d with round := d.round + 1 }
        phase := .running
        collected := v.collected + 1 })

end Loop

/-! ## All parties -/

inductive Action (S : Suite) where
  | advance (i : PartyIndex) (rand : SealRandomness S)
  /-- A call of the exchange returns. -/
  | collect (i : PartyIndex)

def Action.party {S : Suite} : Action S → PartyIndex
  | .advance i _ => i
  | .collect i => i

abbrev Mesh (σ O M : Type) : Type := PartyIndex → Node σ O M

abbrev Trace (S : Suite) (M : Type) : Type := List (Action S × Obs M)

namespace Group

variable {S : Suite} {σ O M : Type} (g : Group S σ O M)

def start (init : PartyIndex → σ) : Mesh σ O M := fun i =>
  ⟨⟨init i, none, .empty, [], 0, 0⟩, .running, [], 0⟩

/-- Every party has made call `k`. -/
def allPosted (s : Mesh σ O M) (k : Nat) : Bool :=
  (parties g.n).all fun j => decide (k < (s j).posted.length)

/-- The payloads of call `k`, by party. -/
def payloads (s : Mesh σ O M) (k : Nat) : List Bytes :=
  (parties g.n).map fun j => ((s j).posted[k]?).getD []

def step (s : Mesh σ O M) : Action S → Option (Obs M × Mesh σ O M)
  | .advance i rand =>
    if i.val < g.n then
      match (s i).phase with
      | .running =>
        let (obs, v) := (s i).advance g i rand
        some (obs, Function.update s i v)
      | _ => none
    else none
  | .collect i =>
    if i.val < g.n then
      match (s i).phase with
      | .exchanging weSentSomething =>
        if g.allPosted s (s i).collected then
          let (obs, v) := (s i).collect g i weSentSomething (g.payloads s (s i).collected)
          some (obs, Function.update s i v)
        else none
      | _ => none
    else none

end Group

/-! ## Logs -/

section Log

variable {S : Suite} {M : Type}

/-- What is seen of one party, newest first. -/
def log (i : PartyIndex) (tr : Trace S M) : List (Obs M) :=
  tr.filterMap fun e => if e.1.party = i then some e.2 else none

/-- Calls of the exchange. -/
def posts : List (Obs M) → Nat
  | [] => 0
  | .posted :: l => posts l + 1
  | _ :: l => posts l

/-- Messages emitted between call `k - 1` and call `k`, oldest first. -/
def emitted (k : Nat) : List (Obs M) → List (MessageDestination × M)
  | [] => []
  | .emitted recipient m :: l =>
    if posts l = k then emitted k l ++ [(recipient, m)] else emitted k l
  | _ :: l => emitted k l

/-- Messages handed to the state machine, oldest first. -/
def handed : List (Obs M) → List (Incoming M)
  | [] => []
  | .handed m :: l => handed l ++ [m]
  | _ :: l => handed l

/-- Messages queued, oldest first. -/
def delivered : List (Obs M) → List (Incoming M)
  | [] => []
  | .delivered queue :: l => delivered l ++ queue
  | _ :: l => delivered l

def broadcasts (es : List (MessageDestination × M)) : List M :=
  es.filterMap fun e => if e.1 = .allParties then some e.2 else none

def messagesTo (j : PartyIndex) (es : List (MessageDestination × M)) : List M :=
  es.filterMap fun e => if e.1 = .oneParty j then some e.2 else none

/-- A message without its number. -/
structure Envelope (M : Type) where
  sender : PartyIndex
  msgType : MessageType
  msg : M
deriving DecidableEq

def Incoming.envelope (m : Incoming M) : Envelope M := ⟨m.sender, m.msgType, m.msg⟩

/-- What one sender's messages are to a party: broadcasts first. -/
def envelopes (sender : PartyIndex) (broadcast p2p : List M) : List (Envelope M) :=
  broadcast.map (⟨sender, .broadcast, ·⟩) ++ p2p.map (⟨sender, .p2p, ·⟩)

/-- What the others emitted to a party before call `k`, in ascending order of the senders. -/
def sentTo (n : Nat) (tr : Trace S M) (j : PartyIndex) (k : Nat) : List (Envelope M) :=
  ((parties n).filter (· ≠ j)).flatMap fun s =>
    envelopes s (broadcasts (emitted k (log s tr))) (messagesTo j (emitted k (log s tr)))

/-- Between two exchanges a party emits at most one broadcast and at most one message to each
other party. -/
def AtMostOnce (tr : Trace S M) : Prop :=
  ∀ s k, (broadcasts (emitted k (log s tr))).length ≤ 1 ∧
    ∀ j, j ≠ s → (messagesTo j (emitted k (log s tr))).length ≤ 1

theorem log_cons_self {i : PartyIndex} {a : Action S} (h : a.party = i) (o : Obs M)
    (tr : Trace S M) : log i ((a, o) :: tr) = o :: log i tr := by
  unfold log
  rw [List.filterMap_cons]
  simp only [if_pos h]

theorem log_cons_other {i : PartyIndex} {a : Action S} (h : a.party ≠ i) (o : Obs M)
    (tr : Trace S M) : log i ((a, o) :: tr) = log i tr := by
  unfold log
  rw [List.filterMap_cons]
  simp only [if_neg h]

/-- `broadcasts` and `messagesTo` select by one destination. -/
theorem mem_of_mem_selected {d : MessageDestination} {es : List (MessageDestination × M)} {m : M}
    (h : m ∈ es.filterMap fun e => if e.1 = d then some e.2 else none) : (d, m) ∈ es := by
  obtain ⟨⟨recipient, m'⟩, he, hm⟩ := List.mem_filterMap.1 h
  split at hm
  · rename_i hr
    cases hm
    cases hr
    exact he
  · cases hm

theorem mem_delivered_cons {o : Obs M} {l : List (Obs M)} {m : Incoming M}
    (h : m ∈ delivered (o :: l)) :
    m ∈ delivered l ∨ ∃ queue, o = .delivered queue ∧ m ∈ queue := by
  cases o with
  | delivered queue =>
    rcases List.mem_append.1 h with hold | hnew
    · exact .inl hold
    · exact .inr ⟨queue, rfl, hnew⟩
  | quiet => exact .inl h
  | emitted recipient m => exact .inl h
  | handed m => exact .inl h
  | posted => exact .inl h
  | ended => exact .inl h

/-- Nothing has been emitted for a call after the next one. -/
theorem emitted_of_posts_lt {k : Nat} {l : List (Obs M)} (h : posts l < k) : emitted k l = [] := by
  induction l with
  | nil => rfl
  | cons o l ih =>
    cases o with
    | posted => exact ih (Nat.lt_of_succ_lt h)
    | emitted recipient m =>
      have hlt : posts l < k := h
      rw [emitted, if_neg (by omega), ih hlt]
    | quiet => exact ih h
    | handed m => exact ih h
    | delivered queue => exact ih h
    | ended => exact ih h

end Log

/-! ## Filling the queue -/

section Queue

variable {S : Suite} {σ O M : Type}

/-- Messages numbered from `id` on. -/
def number (id : Nat) : List (Envelope M) → List (Incoming M)
  | [] => []
  | e :: es => ⟨id, e.sender, e.msgType, e.msg⟩ :: number (id + 1) es

theorem number_append (id : Nat) (es es' : List (Envelope M)) :
    number id (es ++ es') = number id es ++ number (id + es.length) es' := by
  induction es generalizing id with
  | nil => rfl
  | cons e es ih =>
    have hlen : id + (e :: es).length = id + 1 + es.length := by
      rw [List.length_cons]
      omega
    rw [List.cons_append, number, ih, number, List.cons_append, hlen]

theorem map_envelope_number (id : Nat) (es : List (Envelope M)) :
    (number id es).map Incoming.envelope = es := by
  induction es generalizing id with
  | nil => rfl
  | cons e es ih => rw [number, List.map_cons, ih]; rfl

theorem map_id_number (id : Nat) (es : List (Envelope M)) :
    (number id es).map Incoming.id = List.range' id es.length := by
  induction es generalizing id with
  | nil => rfl
  | cons e es ih => rw [number, List.map_cons, ih, List.length_cons, List.range'_succ]

def Driver.pushAll (d : Driver σ M) (es : List (Envelope M)) : Driver σ M :=
  { d with
    incoming := d.incoming ++ number d.nextId es
    nextId := d.nextId + es.length }

theorem Driver.pushAll_nil (d : Driver σ M) : d.pushAll [] = d := by
  simp [Driver.pushAll, number]

theorem Driver.pushAll_append (d : Driver σ M) (es es' : List (Envelope M)) :
    (d.pushAll es).pushAll es' = d.pushAll (es ++ es') := by
  simp [Driver.pushAll, number_append, Nat.add_assoc]

theorem Driver.take_eq (d : Driver σ M) (sender : PartyIndex) (opened : OpenedRound M) :
    d.take sender opened =
      d.pushAll (envelopes sender opened.broadcast.toList opened.p2pToMe.toList) := by
  obtain ⟨broadcast, p2p⟩ := opened
  cases broadcast with
  | none =>
    cases p2p with
    | none => exact (d.pushAll_nil).symm
    | some p => rfl
  | some b =>
    cases p2p with
    | none => rfl
    | some p => exact d.pushAll_append [⟨sender, .broadcast, b⟩] [⟨sender, .p2p, p⟩]

/-- The loop over the senders queues what each of their payloads holds. -/
theorem Driver.receive_eq {g : Group S σ O M} {me : PartyIndex} {all : List Bytes}
    {senders : List PartyIndex} {d : Driver σ M} {received : Bool}
    (opened : PartyIndex → OpenedRound M)
    (h : ∀ s ∈ senders, s ≠ me → ∃ payload, all[s.val]? = some payload ∧
      (g.codec me).openRound g.msg g.packets d.round s payload = .ok (opened s)) :
    ∃ received', d.receive g me all senders received =
      .ok (d.pushAll ((senders.filter (· ≠ me)).flatMap fun s =>
        envelopes s (opened s).broadcast.toList (opened s).p2pToMe.toList), received') := by
  induction senders generalizing d received with
  | nil =>
    refine ⟨received, ?_⟩
    rw [receive, List.filter_nil, List.flatMap_nil, pushAll_nil]
  | cons sender senders ih =>
    have hrest := fun s hs => h s (List.mem_cons_of_mem _ hs)
    by_cases hme : sender = me
    · rw [receive, if_pos hme, List.filter_cons_of_neg (by simpa using hme)]
      exact ih hrest
    · obtain ⟨payload, hpayload, hopen⟩ := h sender (List.mem_cons_self ..) hme
      rw [receive, if_neg hme, hpayload]
      dsimp only
      rw [hopen]
      dsimp only
      rw [take_eq, List.filter_cons_of_pos (by simpa using hme), List.flatMap_cons,
        ← pushAll_append]
      exact ih hrest

end Queue

/-! ## What a pass of the loop can do -/

section Steps

variable {S : Suite} {σ O M : Type} {g : Group S σ O M} {i : PartyIndex} {rand : SealRandomness S}
  {v v' : Node σ O M} {o : Obs M}

/-- The outcomes of a pass. -/
inductive Advanced (g : Group S σ O M) (i : PartyIndex) (rand : SealRandomness S)
    (v : Node σ O M) : Obs M → Node σ O M → Prop
  | quiet (sm : σ) : Advanced g i rand v .quiet { v with driver := { v.driver with sm := sm } }
  | emitted (sm : σ) (recipient : MessageDestination) (m : M) :
      Advanced g i rand v (.emitted recipient m)
        { v with driver := { v.driver with sm := sm }.buffer recipient m }
  | handed {m : Incoming M} {incoming : List (Incoming M)} (sm : σ) (phase : Phase O)
      (hqueue : v.driver.incoming = m :: incoming)
      (hphase : phase = v.phase ∨ ∃ result, phase = .returned result) :
      Advanced g i rand v (.handed m)
        { v with driver := { v.driver with sm := sm, incoming := incoming }, phase := phase }
  | posted {payload : Bytes} (sm : σ) (weSentSomething : Bool) (hqueue : v.driver.incoming = [])
      (hseal : (g.codec i).sealRound g.msg g.packets rand v.driver.round v.driver.broadcastOut
        v.driver.p2pOut = .ok payload) :
      Advanced g i rand v .posted
        { v with
          driver := { v.driver with sm := sm, broadcastOut := none, p2pOut := .empty }
          phase := .exchanging weSentSomething
          posted := v.posted ++ [payload] }
  | ended (sm : σ) (result : Except String O) :
      Advanced g i rand v .ended
        { v with driver := { v.driver with sm := sm }, phase := .returned result }

theorem advanced_of_advance (h : v.advance g i rand = (o, v')) : Advanced g i rand v o v' := by
  unfold Node.advance at h
  dsimp only at h
  split at h
  · cases h
    exact .ended _ _
  · cases h
    exact .ended _ _
  · cases h
    exact .quiet _
  · cases h
    exact .emitted _ _ _
  · split at h
    · rename_i m incoming hqueue
      split at h
      · cases h
        exact .handed _ _ hqueue (.inl rfl)
      · cases h
        exact .handed _ _ hqueue (.inr ⟨_, rfl⟩)
    · rename_i hqueue
      split at h
      · cases h
        exact .ended _ _
      · rename_i payload hseal
        cases h
        exact .posted _ _ hqueue hseal

/-! ## A party's variables follow from its log -/

/-- The buffered messages are the last ones emitted to each destination. -/
structure Buffers (broadcast : Option M) (p2p : Table PartyIndex M)
    (es : List (MessageDestination × M)) : Prop where
  broadcast_eq : broadcast = (broadcasts es).getLast?
  p2p_eq : ∀ j, p2p.get? j = (messagesTo j es).getLast?

theorem Driver.buffer_round (d : Driver σ M) (recipient : MessageDestination) (m : M) :
    (d.buffer recipient m).round = d.round := by
  cases recipient <;> rfl

theorem Driver.buffer_incoming (d : Driver σ M) (recipient : MessageDestination) (m : M) :
    (d.buffer recipient m).incoming = d.incoming := by
  cases recipient <;> rfl

theorem Driver.buffer_nextId (d : Driver σ M) (recipient : MessageDestination) (m : M) :
    (d.buffer recipient m).nextId = d.nextId := by
  cases recipient <;> rfl

theorem Buffers.empty : Buffers (none : Option M) .empty [] := ⟨rfl, fun _ => rfl⟩

theorem Buffers.buffer {d : Driver σ M} {es : List (MessageDestination × M)}
    (h : Buffers d.broadcastOut d.p2pOut es) (recipient : MessageDestination) (m : M) :
    Buffers (d.buffer recipient m).broadcastOut (d.buffer recipient m).p2pOut
      (es ++ [(recipient, m)]) := by
  cases recipient with
  | allParties =>
    refine ⟨?_, fun j => ?_⟩
    · simp [Driver.buffer, broadcasts]
    · simpa [Driver.buffer, messagesTo] using h.p2p_eq j
  | oneParty j =>
    refine ⟨?_, fun j' => ?_⟩
    · simpa [Driver.buffer, broadcasts] using h.broadcast_eq
    · by_cases hj : j = j'
      · subst hj
        simp [Driver.buffer, messagesTo]
      · simpa [Driver.buffer, messagesTo, Table.get?_insert_ne _ _ hj, hj] using h.p2p_eq j'

/-- How a party's variables, queue and payloads follow from its log. -/
structure Kept (g : Group S σ O M) (i : PartyIndex) (l : List (Obs M)) (v : Node σ O M) :
    Prop where
  posts_eq : posts l = v.posted.length
  round_eq : v.driver.round = Fin.ofNat (2 ^ 64) v.collected
  buffers : Buffers v.driver.broadcastOut v.driver.p2pOut (emitted (posts l) l)
  queue : delivered l = handed l ++ v.driver.incoming
  ids : (delivered l).map Incoming.id = List.range v.driver.nextId
  running : v.phase = .running → v.posted.length = v.collected
  exchanging : ∀ w, v.phase = .exchanging w →
    v.posted.length = v.collected + 1 ∧ v.driver.incoming = []
  sealed : ∀ k payload, v.posted[k]? = some payload → ∃ rand broadcast p2p,
    (g.codec i).sealRound g.msg g.packets rand (Fin.ofNat (2 ^ 64) k) broadcast p2p = .ok payload ∧
      Buffers broadcast p2p (emitted k l)

theorem kept_start (g : Group S σ O M) (init : PartyIndex → σ) (i : PartyIndex) :
    Kept g i [] (Group.start init i : Node σ O M) where
  posts_eq := rfl
  round_eq := rfl
  buffers := .empty
  queue := rfl
  ids := rfl
  running _ := rfl
  exchanging _ h := by cases h
  sealed _ _ h := by cases h

/-- **A pass of the loop keeps this.** -/
theorem Kept.advanced {l : List (Obs M)} (h : Kept g i l v) (hphase : v.phase = .running)
    (hstep : Advanced g i rand v o v') : Kept g i (o :: l) v' := by
  cases hstep with
  | quiet sm => exact { h with }
  | ended sm result =>
    exact { h with
      running := fun hrun => by cases hrun
      exchanging := fun w hex => by cases hex }
  | @handed m incoming sm phase hqueue hphase' =>
    exact { h with
      queue := by
        have hold := h.queue
        rw [hqueue] at hold
        simpa [delivered, handed] using hold
      running := fun _ => h.running hphase
      exchanging := fun w hex => by
        rcases hphase' with hkeep | ⟨result, hret⟩
        · cases (hex.symm.trans hkeep).trans hphase
        · cases hex.symm.trans hret }
  | emitted sm recipient m =>
    exact { h with
      round_eq := by rw [Driver.buffer_round]; exact h.round_eq
      buffers := by
        have hposts : posts (.emitted recipient m :: l) = posts l := rfl
        rw [hposts, emitted, if_pos rfl]
        exact Buffers.buffer (d := { v.driver with sm := sm }) h.buffers recipient m
      queue := by rw [Driver.buffer_incoming]; exact h.queue
      ids := by rw [Driver.buffer_nextId]; exact h.ids
      exchanging := fun w hex => by cases hex.symm.trans hphase
      sealed := fun k payload hk => by
        -- The payloads made so far belong to calls that are over.
        have hlt : k < posts l := h.posts_eq ▸ (List.getElem?_eq_some_iff.1 hk).1
        rw [emitted, if_neg (by omega)]
        exact h.sealed k payload hk }
  | @posted payload sm w hqueue hseal =>
    have hlen := h.running hphase
    have hfresh : emitted (posts l + 1) l = [] := emitted_of_posts_lt (Nat.lt_succ_self _)
    exact { h with
      posts_eq := by rw [posts, h.posts_eq, List.length_append, List.length_singleton]
      buffers := by
        show Buffers none .empty (emitted (posts l + 1) l)
        rw [hfresh]
        exact .empty
      running := fun hrun => by cases hrun
      exchanging := fun w _ => by
        rw [List.length_append, List.length_singleton, hlen]
        exact ⟨rfl, hqueue⟩
      sealed := fun k p hk => by
        rcases Nat.lt_or_ge k v.posted.length with hlt | hge
        · rw [List.getElem?_append_left hlt] at hk
          exact h.sealed k p hk
        · obtain rfl : k = v.posted.length := by
            have hk := (List.getElem?_eq_some_iff.1 hk).1
            rw [List.length_append, List.length_singleton] at hk
            omega
          rw [List.getElem?_append_right (Nat.le_refl _), Nat.sub_self] at hk
          cases hk
          refine ⟨rand, v.driver.broadcastOut, v.driver.p2pOut, ?_, ?_⟩
          · rw [hlen, ← h.round_eq]
            exact hseal
          · rw [← h.posts_eq]
            exact h.buffers }

theorem Round.ofNat_succ (k : Nat) :
    (Fin.ofNat (2 ^ 64) k : Round) + 1 = Fin.ofNat (2 ^ 64) (k + 1) := by
  refine Fin.ext ?_
  simp only [Fin.val_add, Fin.val_ofNat, Fin.val_one]
  omega

/-- **So does the return of the exchange**, which queues the numbered messages. -/
theorem Kept.collected {l : List (Obs M)} {w received : Bool} {all : List Bytes}
    {es : List (Envelope M)} (h : Kept g i l v) (hphase : v.phase = .exchanging w)
    (hreceive : v.driver.receive g i all (parties g.n) false = .ok (v.driver.pushAll es, received))
    (hstep : v.collect g i w all = (o, v')) :
    Kept g i (o :: l) v' ∧ o = .delivered (number v.driver.nextId es) ∧
      v'.driver.incoming = number v.driver.nextId es := by
  obtain ⟨hlen, hqueue⟩ := h.exchanging w hphase
  have hincoming : (v.driver.pushAll es).incoming = number v.driver.nextId es := by
    rw [Driver.pushAll, hqueue, List.nil_append]
  have hdelivered : delivered (.delivered (v.driver.pushAll es).incoming :: l) =
      handed l ++ (v.driver.pushAll es).incoming := by
    rw [delivered, h.queue, hqueue, List.append_nil]
  have hids : (delivered (.delivered (v.driver.pushAll es).incoming :: l)).map Incoming.id =
      List.range (v.driver.pushAll es).nextId := by
    rw [delivered, List.map_append, h.ids, hincoming, map_id_number, Driver.pushAll,
      List.range_eq_range', List.range_eq_range', ← List.range'_append_1, Nat.zero_add]
  unfold Node.collect at hstep
  rw [hreceive] at hstep
  dsimp only at hstep
  split at hstep
  · cases hstep
    refine ⟨{ h with
      queue := hdelivered
      ids := hids
      running := fun hrun => by cases hrun
      exchanging := fun w hex => by cases hex }, by rw [hincoming], hincoming⟩
  · cases hstep
    refine ⟨{ h with
      round_eq := by
        show v.driver.round + 1 = _
        rw [h.round_eq, Round.ofNat_succ]
      queue := hdelivered
      ids := hids
      running := fun _ => hlen
      exchanging := fun w hex => by cases hex }, by rw [hincoming], hincoming⟩

/-- The payload a party is calling the exchange with. -/
def Node.ours (v : Node σ O M) : Option Bytes :=
  match v.phase with
  | .exchanging _ => some (v.posted.getLast?.getD [])
  | _ => none

theorem Node.ours_of_ne (h : ∀ w, v.phase ≠ .exchanging w) : v.ours = none := by
  unfold Node.ours
  split
  · rename_i w hw
    exact absurd hw (h w)
  · rfl

/-- A pass leaves the payloads alone, or seals one more and calls the exchange with it. -/
theorem Advanced.calls (h : Advanced g i rand v o v') (hphase : v.phase = .running) :
    v'.collected = v.collected ∧
      (v'.posted = v.posted ∧ (∀ w, v'.phase ≠ .exchanging w) ∧ v'.ours = none ∨
        ∃ payload w, v'.posted = v.posted ++ [payload] ∧ v'.phase = .exchanging w ∧
          v'.ours = some payload) := by
  have hrunning : ∀ w, v.phase ≠ .exchanging w := by
    intro w hw
    cases hphase.symm.trans hw
  cases h with
  | quiet sm => exact ⟨rfl, .inl ⟨rfl, hrunning, Node.ours_of_ne hrunning⟩⟩
  | emitted sm recipient m => exact ⟨rfl, .inl ⟨rfl, hrunning, Node.ours_of_ne hrunning⟩⟩
  | handed sm phase hqueue hkeep =>
    have hno : ∀ w, phase ≠ .exchanging w := by
      intro w hw
      rcases hkeep with hsame | ⟨r, hret⟩
      · exact hrunning w (hsame.symm.trans hw)
      · cases hret.symm.trans hw
    exact ⟨rfl, .inl ⟨rfl, hno, Node.ours_of_ne hno⟩⟩
  | posted sm w hqueue hseal =>
    refine ⟨rfl, .inr ⟨_, w, rfl, rfl, ?_⟩⟩
    simp only [Node.ours, List.getLast?_concat, Option.getD_some]
  | ended sm r => exact ⟨rfl, .inl ⟨rfl, fun w hw => (by cases hw), rfl⟩⟩

/-- The return of a call leaves the payloads alone, and counts unless the loop ends there. -/
theorem collect_cases {w : Bool} {all : List Bytes} (h : v.collect g i w all = (o, v')) :
    v'.posted = v.posted ∧ ((∃ r, v'.phase = .returned r) ∨
      v'.phase = .running ∧ v'.collected = v.collected + 1) := by
  unfold Node.collect at h
  split at h
  · cases h
    exact ⟨rfl, .inl ⟨_, rfl⟩⟩
  · split at h
    · cases h
      exact ⟨rfl, .inl ⟨_, rfl⟩⟩
    · cases h
      exact ⟨rfl, .inr ⟨rfl, rfl⟩⟩

end Steps

/-! ## Runs -/

theorem mem_parties {n : Nat} (hn : n < 2 ^ 16) {i : PartyIndex} : i ∈ parties n ↔ i.val < n := by
  unfold parties
  rw [List.mem_map]
  constructor
  · rintro ⟨k, hk, rfl⟩
    have hk := List.mem_range.1 hk
    rw [Fin.val_ofNat, Nat.mod_eq_of_lt (hk.trans hn)]
    exact hk
  · intro hi
    exact ⟨i.val, List.mem_range.2 hi, Fin.ofNat_val_eq_self i⟩

theorem getElem?_parties {n : Nat} {i : PartyIndex} (hi : i.val < n) :
    (parties n)[i.val]? = some i := by
  unfold parties
  rw [List.getElem?_map, List.getElem?_range hi, Option.map_some, Fin.ofNat_val_eq_self]

theorem parties_sorted {n : Nat} (hn : n < 2 ^ 16) : (parties n).Pairwise (· < ·) := by
  unfold parties
  rw [List.pairwise_map]
  refine List.pairwise_lt_range.imp_of_mem fun ha hb hlt => ?_
  have ha := List.mem_range.1 ha
  have hb := List.mem_range.1 hb
  rw [Fin.lt_def, Fin.val_ofNat, Fin.val_ofNat, Nat.mod_eq_of_lt (ha.trans hn),
    Nat.mod_eq_of_lt (hb.trans hn)]
  exact hlt

section Runs

variable {S : Suite} {σ O M : Type} {g : Group S σ O M} {s s' : Mesh σ O M} {a : Action S}
  {o : Obs M} {tr : Trace S M} {init : PartyIndex → σ}

/-- The steps of the system. -/
inductive Stepped (g : Group S σ O M) (s : Mesh σ O M) : Action S → Obs M → Mesh σ O M → Prop
  | advance {i : PartyIndex} {rand : SealRandomness S} {o : Obs M} {v : Node σ O M}
      (hphase : (s i).phase = .running) (hstep : Advanced g i rand (s i) o v) :
      Stepped g s (.advance i rand) o (Function.update s i v)
  | collect {i : PartyIndex} {w : Bool} {o : Obs M} {v : Node σ O M} (hi : i.val < g.n)
      (hphase : (s i).phase = .exchanging w) (hall : g.allPosted s (s i).collected = true)
      (hstep : (s i).collect g i w (g.payloads s (s i).collected) = (o, v)) :
      Stepped g s (.collect i) o (Function.update s i v)

theorem stepped_of_step (h : g.step s a = some (o, s')) : Stepped g s a o s' := by
  cases a with
  | advance i rand =>
    unfold Group.step at h
    dsimp only at h
    split at h
    · split at h
      · rename_i hphase
        cases h
        exact .advance hphase (advanced_of_advance rfl)
      · cases h
    · cases h
  | collect i =>
    unfold Group.step at h
    dsimp only at h
    split at h
    · rename_i hi
      split at h
      · rename_i w hphase
        split at h
        · rename_i hall
          cases h
          exact .collect hi hphase hall rfl
        · cases h
      · cases h
    · cases h

/-- What sender `j`'s payload of call `k` holds for party `i`. -/
def lastSent (tr : Trace S M) (i : PartyIndex) (k : Nat) (j : PartyIndex) : OpenedRound M :=
  ⟨(broadcasts (emitted k (log j tr))).getLast?, (messagesTo i (emitted k (log j tr))).getLast?⟩

/-- What all payloads of call `k` hold for party `i`. -/
def lastSentTo (n : Nat) (tr : Trace S M) (i : PartyIndex) (k : Nat) : List (Envelope M) :=
  ((parties n).filter (· ≠ i)).flatMap fun j =>
    envelopes j (lastSent tr i k j).broadcast.toList (lastSent tr i k j).p2pToMe.toList

/-- The payloads of a call that everyone has made open to what was emitted before it. -/
theorem receive_payloads {i : PartyIndex} (hkept : ∀ j, Kept g j (log j tr) (s j))
    (hi : i.val < g.n) (hall : g.allPosted s (s i).collected = true) :
    ∃ received, (s i).driver.receive g i (g.payloads s (s i).collected) (parties g.n) false =
      .ok ((s i).driver.pushAll (lastSentTo g.n tr i (s i).collected), received) := by
  refine Driver.receive_eq (lastSent tr i (s i).collected) fun j hj _ => ?_
  have hposted := of_decide_eq_true (List.all_eq_true.1 hall j hj)
  have hpayload := List.getElem?_eq_getElem hposted
  obtain ⟨rand, broadcast, p2p, hseal, hbuffers⟩ := (hkept j).sealed _ _ hpayload
  have hopen := EncryptedRoundCodec.openRound_sealRound hseal (g.domain_eq i j)
    (by rw [g.myIndex_eq]; exact g.partyPubkeys_eq j i hi)
  rw [g.myIndex_eq, g.myIndex_eq, hbuffers.broadcast_eq, hbuffers.p2p_eq, ← (hkept i).round_eq]
    at hopen
  refine ⟨_, ?_, hopen⟩
  unfold Group.payloads
  rw [List.getElem?_map, getElem?_parties ((mem_parties g.n_lt).1 hj), Option.map_some, hpayload,
    Option.getD_some]

/-- A step of one party leaves the others alone. -/
theorem Stepped.other (h : Stepped g s a o s') {i : PartyIndex} (hi : a.party ≠ i) :
    s' i = s i := by
  cases h with
  | advance => exact Function.update_of_ne (Ne.symm hi) _ _
  | collect => exact Function.update_of_ne (Ne.symm hi) _ _

theorem Stepped.kept (h : Stepped g s a o s') (hkept : ∀ j, Kept g j (log j tr) (s j)) :
    Kept g a.party (o :: log a.party tr) (s' a.party) := by
  cases h with
  | @advance i rand o v hphase hadv =>
    rw [Action.party, Function.update_self]
    exact (hkept i).advanced hphase hadv
  | @collect i w o v hi hphase hall hcollect =>
    obtain ⟨received, hreceive⟩ := receive_payloads hkept hi hall
    rw [Action.party, Function.update_self]
    exact ((hkept i).collected hphase hreceive hcollect).1

/-- **In every reachable state, each party's variables follow from its log.** -/
theorem kept_run (h : Run (Steps g.step) (Group.start init) tr s) (i : PartyIndex) :
    Kept g i (log i tr) (s i) := by
  refine Run.historyInvariant (P := fun tr s => ∀ i, Kept g i (log i tr) (s i)) ?_ ?_ h i
  · exact kept_start g init
  · intro tr s a o s' hkept hstep i
    have hstepped := stepped_of_step hstep
    by_cases hi : a.party = i
    · subst hi
      rw [log_cons_self rfl]
      exact hstepped.kept hkept
    · rw [log_cons_other hi, hstepped.other hi]
      exact hkept i

/-! ## Deliveries -/

theorem mem_log_of_mem_emitted {k : Nat} {l : List (Obs M)} {recipient : MessageDestination} {m : M}
    (h : (recipient, m) ∈ emitted k l) : Obs.emitted recipient m ∈ l := by
  induction l with
  | nil => cases h
  | cons o l ih =>
    cases o with
    | emitted recipient' m' =>
      rw [emitted] at h
      split at h
      · rcases List.mem_append.1 h with hold | hnew
        · exact List.mem_cons_of_mem _ (ih hold)
        · cases List.mem_singleton.1 hnew
          exact List.mem_cons_self ..
      · exact List.mem_cons_of_mem _ (ih h)
    | quiet => exact List.mem_cons_of_mem _ (ih h)
    | handed m => exact List.mem_cons_of_mem _ (ih h)
    | posted => exact List.mem_cons_of_mem _ (ih h)
    | delivered queue => exact List.mem_cons_of_mem _ (ih h)
    | ended => exact List.mem_cons_of_mem _ (ih h)

/-- The message was emitted by its sender, to everyone or to this party. -/
structure AddressedTo (tr : Trace S M) (i : PartyIndex) (m : Envelope M) : Prop where
  sender_ne : m.sender ≠ i
  emitted : m.msgType = .broadcast ∧ Obs.emitted .allParties m.msg ∈ log m.sender tr ∨
    m.msgType = .p2p ∧ Obs.emitted (.oneParty i) m.msg ∈ log m.sender tr

theorem AddressedTo.mono {i : PartyIndex} {m : Envelope M} (h : AddressedTo tr i m)
    (x : Action S × Obs M) : AddressedTo (x :: tr) i m := by
  have hlog : ∀ e ∈ log m.sender tr, e ∈ log m.sender (x :: tr) := fun e he =>
    ((List.sublist_cons_self x tr).filterMap _).subset he
  exact ⟨h.sender_ne, h.emitted.imp (fun hb => ⟨hb.1, hlog _ hb.2⟩) fun hp => ⟨hp.1, hlog _ hp.2⟩⟩

theorem addressedTo_of_mem_lastSentTo {n k : Nat} {i : PartyIndex} {e : Envelope M}
    (h : e ∈ lastSentTo n tr i k) : AddressedTo tr i e := by
  obtain ⟨j, hj, he⟩ := List.mem_flatMap.1 h
  have hne : j ≠ i := by simpa using (List.mem_filter.1 hj).2
  rcases List.mem_append.1 he with hb | hp
  · obtain ⟨m, hm, rfl⟩ := List.mem_map.1 hb
    have hmem := mem_of_mem_selected (List.mem_of_getLast? (Option.mem_toList.1 hm))
    exact ⟨hne, .inl ⟨rfl, mem_log_of_mem_emitted hmem⟩⟩
  · obtain ⟨m, hm, rfl⟩ := List.mem_map.1 hp
    have hmem := mem_of_mem_selected (List.mem_of_getLast? (Option.mem_toList.1 hm))
    exact ⟨hne, .inr ⟨rfl, mem_log_of_mem_emitted hmem⟩⟩

/-- What a return of the exchange queues. -/
theorem Stepped.delivered {queue : List (Incoming M)} (h : Stepped g s a (.delivered queue) s')
    (hkept : ∀ j, Kept g j (log j tr) (s j)) :
    queue.map Incoming.envelope = lastSentTo g.n tr a.party (s a.party).collected := by
  generalize ho : Obs.delivered queue = o at h
  cases h with
  | advance hphase hadv =>
    subst ho
    cases hadv
  | @collect i w o v hi hphase hall hcollect =>
    obtain ⟨received, hreceive⟩ := receive_payloads hkept hi hall
    cases ho.trans ((hkept i).collected hphase hreceive hcollect).2.1
    exact map_envelope_number _ _

/-- **No message reaches a party it was not addressed to.** -/
theorem addressed_run (h : Run (Steps g.step) (Group.start init) tr s) {i : PartyIndex}
    {m : Incoming M} (hm : m ∈ delivered (log i tr)) : AddressedTo tr i m.envelope := by
  induction h with
  | start => cases hm
  | @next tr s s' a o hrun hstep ih =>
    by_cases hi : a.party = i
    · subst hi
      rw [log_cons_self rfl] at hm
      rcases mem_delivered_cons hm with hold | ⟨queue, rfl, hnew⟩
      · exact (ih hold).mono _
      · have hqueue := (stepped_of_step hstep).delivered (kept_run hrun)
        have hmem : m.envelope ∈ lastSentTo g.n tr a.party (s a.party).collected :=
          hqueue ▸ List.mem_map_of_mem hnew
        exact (addressedTo_of_mem_lastSentTo hmem).mono _
    · rw [log_cons_other hi] at hm
      exact (ih hm).mono _

theorem toList_getLast? {l : List M} (h : l.length ≤ 1) : l.getLast?.toList = l := by
  cases l with
  | nil => rfl
  | cons m l =>
    obtain rfl : l = [] := List.length_eq_zero_iff.1 (by simpa using h)
    rfl

/-- Where nobody overwrites a message, nothing is lost. -/
theorem lastSentTo_eq {n : Nat} (h : AtMostOnce tr) (i : PartyIndex) (k : Nat) :
    lastSentTo n tr i k = sentTo n tr i k := by
  unfold lastSentTo sentTo
  refine List.flatMap_congr fun j hj => ?_
  have hne : i ≠ j := by
    have hji := (List.mem_filter.1 hj).2
    simpa using Ne.symm (of_decide_eq_true hji)
  rw [lastSent, toList_getLast? (h j k).1, toList_getLast? ((h j k).2 i hne)]

theorem sentTo_sorted {n : Nat} (hn : n < 2 ^ 16) (tr : Trace S M) (i : PartyIndex) (k : Nat) :
    (sentTo n tr i k).Pairwise fun e e' => e.sender ≤ e'.sender := by
  have hsender {j : PartyIndex} {e : Envelope M} {bs ps : List M} (he : e ∈ envelopes j bs ps) :
      e.sender = j := by
    rcases List.mem_append.1 he with hb | hp
    · obtain ⟨m, -, rfl⟩ := List.mem_map.1 hb
      rfl
    · obtain ⟨m, -, rfl⟩ := List.mem_map.1 hp
      rfl
  unfold sentTo
  rw [List.pairwise_flatMap]
  refine ⟨fun j _ => ?_, ?_⟩
  · exact List.pairwise_of_forall_mem_list fun e he e' he' => by rw [hsender he, hsender he']
  · refine (parties_sorted hn).filter _ |>.imp ?_
    intro j j' hlt e he e' he'
    rw [hsender he, hsender he']
    exact hlt.le

/-- **Every message is delivered once, in order.**  During a call of the exchange the queue is empty
and everything queued before has been handed over.  When the call returns, the queue holds exactly
the messages that the others emitted to this party since the call before, in ascending order of the
senders and broadcasts first.  Over the whole run the numbers increase, messages are handed over in
the order of the queue, and each was emitted to its receiver by the sender it names. -/
theorem driver_delivers (g : Group S σ O M) (init : PartyIndex → σ) {tr : Trace S M}
    {s : Mesh σ O M} (hrun : Run (Steps g.step) (Group.start init) tr s) (honce : AtMostOnce tr) :
    (∀ i w, (s i).phase = .exchanging w →
      (s i).driver.incoming = [] ∧ handed (log i tr) = delivered (log i tr)) ∧
    (∀ i o s', g.step s (.collect i) = some (o, s') →
      (s i).driver.incoming = [] ∧ ∃ queue, o = .delivered queue ∧
        (s' i).driver.incoming = queue ∧
        queue.map Incoming.envelope = sentTo g.n tr i (s i).collected ∧
        queue.Pairwise (fun m m' => m.sender ≤ m'.sender)) ∧
    ∀ i, (delivered (log i tr)).Pairwise (fun m m' => m.id < m'.id) ∧
      delivered (log i tr) = handed (log i tr) ++ (s i).driver.incoming ∧
      ∀ m ∈ delivered (log i tr), AddressedTo tr i m.envelope := by
  have hkept := kept_run hrun
  refine ⟨fun i w hphase => ?_, fun i o s' hstep => ?_, fun i => ⟨?_, (hkept i).queue, ?_⟩⟩
  · have hempty := ((hkept i).exchanging w hphase).2
    have hqueue := (hkept i).queue
    rw [hempty, List.append_nil] at hqueue
    exact ⟨hempty, hqueue.symm⟩
  · generalize ha : (Action.collect i : Action S) = a at hstep
    cases stepped_of_step hstep with
    | advance => cases ha
    | @collect j w o v hi hphase hall hcollect =>
      cases ha
      obtain ⟨received, hreceive⟩ := receive_payloads hkept hi hall
      obtain ⟨-, ho, hincoming⟩ := (hkept i).collected hphase hreceive hcollect
      have henvelopes := map_envelope_number (s i).driver.nextId
        (lastSentTo g.n tr i (s i).collected)
      rw [lastSentTo_eq honce] at ho hincoming henvelopes
      refine ⟨((hkept i).exchanging w hphase).2, _, ho, ?_, henvelopes, ?_⟩
      · rw [Function.update_self, hincoming]
      · have hsorted := sentTo_sorted g.n_lt tr i (s i).collected
        rw [← henvelopes, List.pairwise_map] at hsorted
        exact hsorted
  · have hids : ((delivered (log i tr)).map Incoming.id).Pairwise (· < ·) := by
      rw [(hkept i).ids]
      exact List.pairwise_lt_range
    exact List.pairwise_map.1 hids
  · exact fun m hm => addressed_run hrun hm

end Runs

/-! ## A sample -/

/-- A state machine that follows a script and then takes every message. -/
def scripted : StateMachine (List (ProceedResult Unit UInt8)) Unit UInt8 where
  proceed
    | [] => (.needsOneMoreMessage, [])
    | r :: script => (r, script)
  receivedMsg script _ := .ok script

def pairPackets : Serializer RoundPacket :=
  .ofList [packetOf 0 0 (some [5]) (Table.empty.insert 1 8),
    packetOf 1 0 none (Table.empty.insert 0 6)]

/-- Two parties. -/
def samplePair : Group sampleSuite (List (ProceedResult Unit UInt8)) Unit UInt8 where
  n := 2
  n_lt := by decide
  machine := scripted
  codec := sampleCodec
  msg := byteMessages
  packets := pairPackets
  myIndex_eq _ := rfl
  domain_eq _ _ := rfl
  partyPubkeys_eq _ j hj := by
    have hj : j.val = 0 ∨ j.val = 1 := by omega
    rcases hj with hj | hj
    · obtain rfl : j = 0 := Fin.ext hj
      rfl
    · obtain rfl : j = 1 := Fin.ext hj
      rfl

/-- The first party broadcasts and sends a message; the second yields and answers. -/
def sampleScripts (i : PartyIndex) : List (ProceedResult Unit UInt8) :=
  if i = 0 then [.sendMsg .allParties 5, .sendMsg (.oneParty 1) 8]
  else [.yielded, .sendMsg (.oneParty 0) 6]

/-- Both call the exchange; the second party is back first and takes a message. -/
def sampleActions : List (Action sampleSuite) :=
  [.advance 0 sampleRand, .advance 1 sampleRand, .advance 0 sampleRand, .advance 1 sampleRand,
    .advance 0 sampleRand, .advance 1 sampleRand, .collect 1, .advance 1 sampleRand]

theorem sampleActions_accepted :
    (exec samplePair.step [] (Group.start sampleScripts) sampleActions).isSome := by
  decide +kernel

def sampleEnd : Trace sampleSuite UInt8 × Mesh (List (ProceedResult Unit UInt8)) Unit UInt8 :=
  (exec samplePair.step [] (Group.start sampleScripts) sampleActions).get sampleActions_accepted

theorem sampleEnd_log :
    log 0 sampleEnd.1 = [.posted, .emitted (.oneParty 1) 8, .emitted .allParties 5] ∧
      log 1 sampleEnd.1 = [.handed ⟨0, 0, .broadcast, 5⟩,
        .delivered [⟨0, 0, .broadcast, 5⟩, ⟨1, 0, .p2p, 8⟩], .posted,
        .emitted (.oneParty 0) 6, .quiet] := by
  decide +kernel

theorem sampleEnd_parties : ∀ e ∈ sampleEnd.1, e.1.party = 0 ∨ e.1.party = 1 := by
  decide +kernel

theorem sampleEnd_atMostOnce : AtMostOnce sampleEnd.1 := by
  intro i k
  by_cases h0 : i = 0
  · subst h0
    rw [sampleEnd_log.1]
    by_cases hk : 0 = k
    · subst hk
      refine ⟨by decide, fun j _ => ?_⟩
      by_cases hj : 1 = j <;> simp [emitted, posts, messagesTo, hj]
    · simp [emitted, posts, hk, broadcasts, messagesTo]
  · by_cases h1 : i = 1
    · subst h1
      rw [sampleEnd_log.2]
      by_cases hk : 0 = k
      · subst hk
        refine ⟨by decide, fun j _ => ?_⟩
        by_cases hj : 0 = j <;> simp [emitted, posts, messagesTo, hj]
      · simp [emitted, posts, hk, broadcasts, messagesTo]
    · have hlog : log i sampleEnd.1 = [] := by
        unfold log
        rw [List.filterMap_eq_nil_iff]
        intro e he
        refine if_neg fun hi => ?_
        rcases sampleEnd_parties e he with h | h
        · exact h0 (hi.symm.trans h)
        · exact h1 (hi.symm.trans h)
      rw [hlog]
      exact ⟨Nat.zero_le _, fun _ _ => Nat.zero_le _⟩

theorem driver_delivers_sample :
    AtMostOnce sampleEnd.1 ∧ ∃ queue s',
      samplePair.step sampleEnd.2 (.collect 0) = some (.delivered queue, s') ∧
        queue.map Incoming.envelope = [⟨1, .p2p, 6⟩] := by
  obtain ⟨-, hcollect, -⟩ := driver_delivers samplePair sampleScripts
    (Run.of_isSome sampleActions_accepted) sampleEnd_atMostOnce
  have hsome : (samplePair.step sampleEnd.2 (.collect 0)).isSome := by decide +kernel
  obtain ⟨⟨o, s'⟩, hstep⟩ := Option.isSome_iff_exists.1 hsome
  obtain ⟨-, queue, rfl, -, hqueue, -⟩ := hcollect 0 o s' hstep
  refine ⟨sampleEnd_atMostOnce, queue, s', hstep, hqueue.trans ?_⟩
  decide +kernel

end Experimint.ThresholdEcdsa
