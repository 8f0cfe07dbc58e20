import Experimint.Lib.Fifo
import Experimint.Threshold.Driver
import Mathlib.Order.WellFounded

/-!
# The in-memory mesh

An exchange for parties in one process: one channel for each ordered pair of parties.  A call sends
the payload into every outgoing channel, one after the other, and then takes one payload out of
every incoming channel, waiting where it is empty.  Each send and each receive is a step of its
own, so the parties' calls overlap in every way the scheduler allows, and a party that has returned
may drop its endpoint while others still send to it or wait for it.

* `InMemoryMesh.exchangeStep` — one step of a call.
* `Wired` — each channel holds the payloads sent and not yet taken; `Wired.step` is its step lemma.
* `mesh_refines` — parties over the mesh are parties over an exchange that hands everyone the
  payloads of the same call.
* `mesh_delivers` — so every message is delivered once, in order.
* `mesh_progress` — calls never wait for each other in a circle.
-/

set_option autoImplicit false

namespace Experimint.ThresholdEcdsa

/-! ## Endpoints -/

/-- The channel from one party to another. -/
structure Channel where
  sender : PartyIndex
  receiver : PartyIndex
deriving DecidableEq

structure InMemoryMesh where
  index : PartyIndex
  n : Nat
  senders : List (Option Channel)
  receivers : List (Option Channel)

/-- `tx[i][j]` and `rx[i][j]`: the two ends of the channel from `i` to `j`. -/
def dedicated (i j : PartyIndex) : Option Channel := if i = j then none else some ⟨i, j⟩

/-- The endpoint that `in_memory_mesh` makes for a party. -/
def endpoint (n : Nat) (i : PartyIndex) : InMemoryMesh where
  index := i
  n := n
  senders := (parties n).map fun j => dedicated i j
  receivers := (parties n).map fun j => dedicated j i

/-- Where a party is in its call: the next party to send to, or to receive from. -/
inductive Call where
  | sending (j : Nat) (ours : Bytes)
  | receiving (j : Nat) (slots : List (Option Bytes))
deriving DecidableEq

inductive CallStep where
  | continued (call : Call) (queue : Channel → List Bytes)
  | blocked
  | done (all : List Bytes)
  | failed (err : String)

def takeSlot : Option Bytes × Nat → Except String Bytes
  | (some payload, _) => .ok payload
  | (none, j) => .error s!"missing payload from party {j}"

def allSlots (slots : List (Option Bytes)) : Except String (List Bytes) :=
  slots.zipIdx.mapM takeSlot

/-- One step of `exchange`. -/
def InMemoryMesh.exchangeStep (m : InMemoryMesh) (queue : Channel → List Bytes)
    (dropped : PartyIndex → Bool) : Call → CallStep
  | .sending j ours =>
    if j < m.n then
      if j = m.index.val then .continued (.sending (j + 1) ours) queue
      else
        match (m.senders[j]?).join with
        | none => .failed s!"missing dedicated channel to party {j}"
        | some c =>
          if dropped c.receiver then .failed s!"mesh peer {j} dropped"
          else
            .continued (.sending (j + 1) ours) (Function.update queue c (queue c ++ [ours]))
    else .continued (.receiving 0 ((List.replicate m.n none).set m.index.val (some ours))) queue
  | .receiving j slots =>
    if j < m.n then
      if j = m.index.val then .continued (.receiving (j + 1) slots) queue
      else
        match (m.receivers[j]?).join with
        | none => .failed s!"missing dedicated channel from party {j}"
        | some c =>
          match queue c with
          | payload :: rest =>
            .continued (.receiving (j + 1) (slots.set j (some payload)))
              (Function.update queue c rest)
          | [] =>
            if dropped c.sender then
              .failed s!"mesh channel from party {j} closed before sending this round's payload"
            else .blocked
    else
      match allSlots slots with
      | .ok all => .done all
      | .error e => .failed e

/-! ## Parties over the mesh -/

structure Wires (σ O M : Type) where
  nodes : Mesh σ O M
  call : PartyIndex → Option Call
  queue : Channel → List Bytes
  dropped : PartyIndex → Bool

inductive WireAction (S : Suite) where
  | advance (i : PartyIndex) (rand : SealRandomness S)
  /-- A step inside a call of the exchange. -/
  | exchange (i : PartyIndex)
  /-- The endpoint of a party that has returned is dropped. -/
  | drop (i : PartyIndex)

section Wires

variable {S : Suite} {σ O M : Type}

def Wires.start (init : PartyIndex → σ) : Wires σ O M where
  nodes := Group.start init
  call _ := none
  queue _ := []
  dropped _ := false

/-- A pass that reaches the exchange starts with the first send. -/
def startCall (v : Node σ O M) : Option Call := v.ours.map (.sending 0)

def wireStep (g : Group S σ O M) (s : Wires σ O M) : WireAction S → Option (Obs M × Wires σ O M)
  | .advance i rand =>
    if i.val < g.n then
      match (s.nodes i).phase with
      | .running =>
        let (obs, v) := (s.nodes i).advance g i rand
        some (obs, { s with
          nodes := Function.update s.nodes i v
          call := Function.update s.call i (startCall v) })
      | _ => none
    else none
  | .exchange i =>
    match (s.nodes i).phase, s.call i with
    | .exchanging weSentSomething, some call =>
      match (endpoint g.n i).exchangeStep s.queue s.dropped call with
      | .continued call queue =>
        some (.quiet, { s with call := Function.update s.call i (some call), queue := queue })
      | .blocked => none
      | .done all =>
        let (obs, v) := (s.nodes i).collect g i weSentSomething all
        some (obs, { s with
          nodes := Function.update s.nodes i v
          call := Function.update s.call i none })
      | .failed _ =>
        some (.ended, { s with
          nodes := Function.update s.nodes i
            { s.nodes i with phase := .returned (.error "round exchange") }
          call := Function.update s.call i none })
    | _, _ => none
  | .drop i =>
    match (s.nodes i).phase with
    | .returned _ => some (.quiet, { s with dropped := Function.update s.dropped i true })
    | _ => none

end Wires

/-! ## What a step of a call can do -/

theorem ext_parties {α : Type} {n : Nat} {a b : List α} (hn : n < 2 ^ 16) (ha : a.length = n)
    (hb : b.length = n) (h : ∀ l : PartyIndex, l.val < n → a[l.val]? = b[l.val]?) : a = b := by
  refine List.ext_getElem? fun j => ?_
  by_cases hj : j < n
  · exact h ⟨j, hj.trans hn⟩ hj
  · rw [List.getElem?_eq_none (by omega), List.getElem?_eq_none (by omega)]

theorem length_parties (n : Nat) : (parties n).length = n := by simp [parties]

theorem getElem?_map_parties {α : Type} {n : Nat} (f : PartyIndex → α) {l : PartyIndex}
    (hl : l.val < n) : ((parties n).map f)[l.val]? = some (f l) := by
  rw [List.getElem?_map, getElem?_parties hl, Option.map_some]

theorem allSlots_eq_ok_iff {slots : List (Option Bytes)} {all : List Bytes} :
    allSlots slots = .ok all ↔ slots = all.map some := by
  unfold allSlots
  -- the positions only enter the error texts
  generalize 0 = k
  induction slots generalizing all k with
  | nil =>
    constructor
    · intro h
      cases h
      rfl
    · intro h
      rw [List.map_eq_nil_iff.1 h.symm]
      rfl
  | cons slot slots ih =>
    rw [List.zipIdx_cons, List.mapM_cons]
    cases slot with
    | none =>
      constructor
      · intro h
        cases h
      · intro h
        cases all <;> cases h
    | some payload =>
      cases hrest : (slots.zipIdx (k + 1)).mapM takeSlot with
      | error e =>
        constructor
        · intro h
          cases h
        · intro h
          cases all with
          | nil => cases h
          | cons payload' rest =>
            rw [(ih (k + 1)).2 (List.cons.inj h).2] at hrest
            cases hrest
      | ok rest =>
        have htail := (ih (k + 1)).1 hrest
        constructor
        · intro h
          cases h
          rw [htail, List.map_cons]
        · intro h
          cases all with
          | nil => cases h
          | cons payload' rest' =>
            obtain ⟨hhead, hrest'⟩ := List.cons.inj h
            cases hhead
            obtain rfl : rest = rest' :=
              List.map_injective_iff.2 (Option.some_injective _) (htail.symm.trans hrest')
            rfl

/-- The outcomes of a step. -/
inductive Exchanged (n : Nat) (i : PartyIndex) (queue : Channel → List Bytes)
    (dropped : PartyIndex → Bool) : Call → CallStep → Prop
  | skipSend (ours : Bytes) :
      Exchanged n i queue dropped (.sending i.val ours)
        (.continued (.sending (i.val + 1) ours) queue)
  | send {l : PartyIndex} (ours : Bytes) (hl : l.val < n) (hne : i ≠ l) :
      Exchanged n i queue dropped (.sending l.val ours) (.continued (.sending (l.val + 1) ours)
        (Function.update queue ⟨i, l⟩ (queue ⟨i, l⟩ ++ [ours])))
  | turn {j : Nat} (ours : Bytes) (hj : n ≤ j) :
      Exchanged n i queue dropped (.sending j ours)
        (.continued (.receiving 0 ((List.replicate n none).set i.val (some ours))) queue)
  | skipReceive (slots : List (Option Bytes)) :
      Exchanged n i queue dropped (.receiving i.val slots)
        (.continued (.receiving (i.val + 1) slots) queue)
  | receive {l : PartyIndex} {payload : Bytes} {rest : List Bytes} (slots : List (Option Bytes))
      (hl : l.val < n) (hne : l ≠ i) (hqueue : queue ⟨l, i⟩ = payload :: rest) :
      Exchanged n i queue dropped (.receiving l.val slots)
        (.continued (.receiving (l.val + 1) (slots.set l.val (some payload)))
          (Function.update queue ⟨l, i⟩ rest))
  | done {j : Nat} {all : List Bytes} (hj : n ≤ j) :
      Exchanged n i queue dropped (.receiving j (all.map some)) (.done all)
  | failed (call : Call) (err : String) : Exchanged n i queue dropped call (.failed err)
  | blocked {l : PartyIndex} (slots : List (Option Bytes)) (hl : l.val < n) (hne : l ≠ i)
      (hempty : queue ⟨l, i⟩ = []) (hopen : dropped l = false) :
      Exchanged n i queue dropped (.receiving l.val slots) .blocked

theorem exchanged {n : Nat} {i : PartyIndex} (hn : n < 2 ^ 16) (queue : Channel → List Bytes)
    (dropped : PartyIndex → Bool) (call : Call) :
    Exchanged n i queue dropped call ((endpoint n i).exchangeStep queue dropped call) := by
  have hsender : ∀ l : PartyIndex, l.val < n → i ≠ l →
      ((endpoint n i).senders[l.val]?).join = some ⟨i, l⟩ := by
    intro l hl hne
    rw [endpoint, getElem?_map_parties _ hl, dedicated, if_neg hne]
    rfl
  have hreceiver : ∀ l : PartyIndex, l.val < n → l ≠ i →
      ((endpoint n i).receivers[l.val]?).join = some ⟨l, i⟩ := by
    intro l hl hne
    rw [endpoint, getElem?_map_parties _ hl, dedicated, if_neg hne]
    rfl
  have hindex : (endpoint n i).index = i := rfl
  have hsize : (endpoint n i).n = n := rfl
  cases call with
  | sending j ours =>
    by_cases hj : j < n
    · obtain ⟨l, rfl⟩ : ∃ l : PartyIndex, l.val = j := ⟨⟨j, hj.trans hn⟩, rfl⟩
      rw [InMemoryMesh.exchangeStep, hsize, hindex, if_pos hj]
      by_cases hi : l = i
      · rw [hi, if_pos rfl]
        exact .skipSend ours
      · rw [if_neg fun h => hi (Fin.ext h), hsender l hj (Ne.symm hi)]
        dsimp only
        split
        · exact .failed _ _
        · exact .send ours hj (Ne.symm hi)
    · rw [InMemoryMesh.exchangeStep, hsize, hindex, if_neg hj]
      exact .turn ours (by omega)
  | receiving j slots =>
    by_cases hj : j < n
    · obtain ⟨l, rfl⟩ : ∃ l : PartyIndex, l.val = j := ⟨⟨j, hj.trans hn⟩, rfl⟩
      rw [InMemoryMesh.exchangeStep, hsize, hindex, if_pos hj]
      by_cases hi : l = i
      · rw [hi, if_pos rfl]
        exact .skipReceive slots
      · rw [if_neg fun h => hi (Fin.ext h), hreceiver l hj hi]
        dsimp only
        split
        · rename_i hqueue
          exact .receive slots hj hi hqueue
        · rename_i hempty
          split
          · exact .failed _ _
          · rename_i hopen
            exact .blocked slots hj hi hempty (Bool.eq_false_of_not_eq_true hopen)
    · rw [InMemoryMesh.exchangeStep, hsize, hindex, if_neg hj]
      split
      · rename_i all hall
        obtain rfl := allSlots_eq_ok_iff.1 hall
        exact .done (by omega)
      · exact .failed _ _

section Steps

variable {S : Suite} {σ O M : Type} {g : Group S σ O M} {s s' : Wires σ O M} {a : WireAction S}
  {o : Obs M} {i : PartyIndex} {rand : SealRandomness S} {v v' : Node σ O M}

/-- The steps of parties over the mesh. -/
inductive WireStepped (g : Group S σ O M) (s : Wires σ O M) :
    WireAction S → Obs M → Wires σ O M → Prop
  | advance {i : PartyIndex} {rand : SealRandomness S} {o : Obs M} {v : Node σ O M}
      (hi : i.val < g.n) (hphase : (s.nodes i).phase = .running)
      (hstep : (s.nodes i).advance g i rand = (o, v)) :
      WireStepped g s (.advance i rand) o { s with
        nodes := Function.update s.nodes i v
        call := Function.update s.call i (startCall v) }
  | continued {i : PartyIndex} {call call' : Call} {queue : Channel → List Bytes} {w : Bool}
      (hphase : (s.nodes i).phase = .exchanging w) (hcall : s.call i = some call)
      (hstep : Exchanged g.n i s.queue s.dropped call (.continued call' queue)) :
      WireStepped g s (.exchange i) .quiet { s with
        call := Function.update s.call i (some call')
        queue := queue }
  | done {i : PartyIndex} {j : Nat} {all : List Bytes} {w : Bool} {o : Obs M} {v : Node σ O M}
      (hphase : (s.nodes i).phase = .exchanging w)
      (hcall : s.call i = some (.receiving j (all.map some))) (hj : g.n ≤ j)
      (hcollect : (s.nodes i).collect g i w all = (o, v)) :
      WireStepped g s (.exchange i) o { s with
        nodes := Function.update s.nodes i v
        call := Function.update s.call i none }
  | failed {i : PartyIndex} {w : Bool} (hphase : (s.nodes i).phase = .exchanging w) :
      WireStepped g s (.exchange i) .ended { s with
        nodes := Function.update s.nodes i
          { s.nodes i with phase := .returned (.error "round exchange") }
        call := Function.update s.call i none }
  | drop {i : PartyIndex} {r : Except String O} (hphase : (s.nodes i).phase = .returned r) :
      WireStepped g s (.drop i) .quiet { s with dropped := Function.update s.dropped i true }

theorem wireStepped_of_step (h : wireStep g s a = some (o, s')) : WireStepped g s a o s' := by
  cases a with
  | advance i rand =>
    unfold wireStep at h
    dsimp only at h
    split at h
    · rename_i hi
      split at h
      · rename_i hphase
        cases h
        exact .advance hi hphase rfl
      · cases h
    · cases h
  | exchange i =>
    unfold wireStep at h
    dsimp only at h
    split at h
    · rename_i w call hphase hcall
      have hstep := exchanged (i := i) g.n_lt s.queue s.dropped call
      split at h
      · rename_i call' queue heq
        rw [heq] at hstep
        cases h
        exact .continued hphase hcall hstep
      · cases h
      · rename_i all heq
        rw [heq] at hstep
        cases h
        cases hstep with
        | done hj => exact .done hphase hcall hj rfl
      · cases h
        exact .failed hphase
    · cases h
  | drop i =>
    unfold wireStep at h
    dsimp only at h
    split at h
    · rename_i hphase
      cases h
      exact .drop hphase
    · cases h

end Steps

/-! ## What the channels hold -/

/-- Payloads a party has put into its channel to `j`. -/
def sentCount (call : Option Call) (posted : Nat) (j : PartyIndex) : Nat :=
  match call with
  | some (.sending k _) => if j.val < k then posted else posted - 1
  | _ => posted

/-- Payloads a party has taken out of its channel from `i`. -/
def takenCount (call : Option Call) (collected : Nat) (i : PartyIndex) : Nat :=
  match call with
  | some (.receiving k _) => if i.val < k then collected + 1 else collected
  | _ => collected

section Invariant

variable {S : Suite} {σ O M : Type} {g : Group S σ O M} {s s' : Wires σ O M} {a : WireAction S}
  {o : Obs M} {i : PartyIndex} {v : Node σ O M}

/-- The slots of a call that has received from the parties below `k`. -/
def Wires.slotsOf (s : Wires σ O M) (n : Nat) (i : PartyIndex) (k : Nat) : List (Option Bytes) :=
  (parties n).map fun l =>
    if l = i ∨ l.val < k then (s.nodes l).posted[(s.nodes i).collected]? else none

/-- The channel from `i` to `j` holds what `i` has sent and `j` has not taken.  A party that returned
out of a call may have sent its last payload to some parties only. -/
def Wires.Holds (s : Wires σ O M) (i j : PartyIndex) : Prop :=
  ∃ m, takenCount (s.call j) (s.nodes j).collected i ≤ m ∧ m ≤ (s.nodes i).posted.length ∧
    s.queue ⟨i, j⟩ =
      window (s.nodes i).posted (takenCount (s.call j) (s.nodes j).collected i) m ∧
    ((∀ r, (s.nodes i).phase ≠ .returned r) →
      m = sentCount (s.call i) (s.nodes i).posted.length j)

/-- A party's call fits its loop. -/
structure InCall (g : Group S σ O M) (s : Wires σ O M) (i : PartyIndex) : Prop where
  bound : ∀ w, (s.nodes i).phase = .exchanging w → i.val < g.n
  call_some : ∀ w, (s.nodes i).phase = .exchanging w → ∃ c, s.call i = some c
  call_none : (∀ w, (s.nodes i).phase ≠ .exchanging w) → s.call i = none
  ours : ∀ k ours, s.call i = some (.sending k ours) → (s.nodes i).posted.getLast? = some ours
  slots : ∀ k slots, s.call i = some (.receiving k slots) → slots = s.slotsOf g.n i k
  present : ∀ k slots, s.call i = some (.receiving k slots) → ∀ l : PartyIndex, l.val < g.n →
    l = i ∨ l.val < k → (s.nodes i).collected < (s.nodes l).posted.length

/-- The invariant of the mesh. -/
structure Wired (g : Group S σ O M) (s : Wires σ O M) : Prop where
  inCall : ∀ i, InCall g s i
  channel : ∀ i j, i.val < g.n → j.val < g.n → i ≠ j → (∀ r, (s.nodes j).phase ≠ .returned r) →
    s.Holds i j

/-- The lengths that the loop keeps. -/
structure Counted (s : Wires σ O M) : Prop where
  running : ∀ i, (s.nodes i).phase = .running →
    (s.nodes i).posted.length = (s.nodes i).collected
  exchanging : ∀ i w, (s.nodes i).phase = .exchanging w →
    (s.nodes i).posted.length = (s.nodes i).collected + 1

theorem wired_start (g : Group S σ O M) (init : PartyIndex → σ) :
    Wired g (Wires.start init : Wires σ O M) where
  inCall i := {
    bound := fun w h => by cases h
    call_some := fun w h => by cases h
    call_none := fun _ => rfl
    ours := fun k ours h => by cases h
    slots := fun k slots h => by cases h
    present := fun k slots h => by cases h }
  channel i j _ _ _ _ := ⟨0, Nat.le_refl _, Nat.le_refl _, rfl, fun _ => rfl⟩

/-- What another party's call has collected stays where it is. -/
theorem slotsOf_congr {l : PartyIndex} {k : Nat}
    (hnodes : ∀ x, (s.nodes x).posted <+: (s'.nodes x).posted)
    (hcollected : (s'.nodes l).collected = (s.nodes l).collected)
    (hpresent : ∀ x : PartyIndex, x.val < g.n → x = l ∨ x.val < k →
      (s.nodes l).collected < (s.nodes x).posted.length) :
    s'.slotsOf g.n l k = s.slotsOf g.n l k := by
  unfold Wires.slotsOf
  refine List.map_congr_left fun x hx => ?_
  have hx := (mem_parties g.n_lt).1 hx
  split
  · rename_i hk
    obtain ⟨more, hmore⟩ := hnodes x
    rw [hcollected, ← hmore, List.getElem?_append_left (hpresent x hx hk)]
  · rfl

/-- A step of party `i` leaves the other parties' calls as they were. -/
theorem InCall.other {x : PartyIndex} (h : InCall g s x) (hnode : s'.nodes x = s.nodes x)
    (hcall : s'.call x = s.call x) (hnodes : ∀ x, (s.nodes x).posted <+: (s'.nodes x).posted) :
    InCall g s' x where
  bound w hw := h.bound w (hnode ▸ hw)
  call_some w hw := by
    rw [hcall]
    exact h.call_some w (hnode ▸ hw)
  call_none hw := by
    rw [hcall]
    exact h.call_none fun w hphase => hw w (hnode ▸ hphase)
  ours k ours hk := by
    rw [hnode]
    exact h.ours k ours (hcall ▸ hk)
  slots k slots hk := by
    have hk : s.call x = some (.receiving k slots) := hcall ▸ hk
    rw [slotsOf_congr hnodes (by rw [hnode]) (h.present k slots hk)]
    exact h.slots k slots hk
  present k slots hk l hl hlk := by
    have hlt := h.present k slots (hcall ▸ hk) l hl hlk
    rw [hnode]
    exact hlt.trans_le (hnodes l).length_le

theorem Wires.Holds.congr {x y : PartyIndex} (h : s.Holds x y) (hx : s'.nodes x = s.nodes x)
    (hy : s'.nodes y = s.nodes y) (hcx : s'.call x = s.call x) (hcy : s'.call y = s.call y)
    (hqueue : s'.queue ⟨x, y⟩ = s.queue ⟨x, y⟩) : s'.Holds x y := by
  unfold Wires.Holds
  rw [hx, hy, hcx, hcy, hqueue]
  exact h

/-- A party's own side of its channels, where its payloads, its count and its call's counts do not
change and it does not come back. -/
theorem Wires.Holds.of_counts {x y : PartyIndex} (h : s.Holds x y)
    (hposted : (s'.nodes x).posted = (s.nodes x).posted)
    (htaken : takenCount (s'.call y) (s'.nodes y).collected x =
      takenCount (s.call y) (s.nodes y).collected x)
    (hsent : (∀ r, (s'.nodes x).phase ≠ .returned r) → (∀ r, (s.nodes x).phase ≠ .returned r) ∧
      sentCount (s'.call x) (s.nodes x).posted.length y =
        sentCount (s.call x) (s.nodes x).posted.length y)
    (hqueue : s'.queue ⟨x, y⟩ = s.queue ⟨x, y⟩) : s'.Holds x y := by
  obtain ⟨m, htm, hmp, hq, hm⟩ := h
  refine ⟨m, by rw [htaken]; exact htm, by rw [hposted]; exact hmp, ?_, fun hret => ?_⟩
  · rw [hqueue, hq, htaken, hposted]
  · obtain ⟨hret', heq⟩ := hsent hret
    rw [hm hret', hposted, heq]

/-- A party outside a call. -/
theorem InCall.idle (hphase : ∀ w, (s.nodes i).phase ≠ .exchanging w) (hcall : s.call i = none) :
    InCall g s i where
  bound w hw := absurd hw (hphase w)
  call_some w hw := absurd hw (hphase w)
  call_none _ := hcall
  ours k ours hk := by cases hcall.symm.trans hk
  slots k slots hk := by cases hcall.symm.trans hk
  present k slots hk := by cases hcall.symm.trans hk

/-- **A step of party `i` keeps the invariant** where it only touches the party's own node, its call
and its own channels, and keeps those right. -/
theorem Wired.of_party (h : Wired g s) (hnode : ∀ x, x ≠ i → s'.nodes x = s.nodes x)
    (hcall : ∀ x, x ≠ i → s'.call x = s.call x)
    (hqueue : ∀ x y, x ≠ i → y ≠ i → s'.queue ⟨x, y⟩ = s.queue ⟨x, y⟩)
    (hposted : (s.nodes i).posted <+: (s'.nodes i).posted) (hin : InCall g s' i)
    (hout : ∀ y, y.val < g.n → y ≠ i → s.Holds i y → s'.Holds i y)
    (hinto : ∀ x, x.val < g.n → i.val < g.n → x ≠ i →
      (∀ r, (s'.nodes i).phase ≠ .returned r) → s'.Holds x i) : Wired g s' where
  inCall x := by
    by_cases hx : x = i
    · exact hx ▸ hin
    · refine (h.inCall x).other (hnode x hx) (hcall x hx) fun y => ?_
      by_cases hy : y = i
      · exact hy ▸ hposted
      · exact hnode y hy ▸ List.prefix_rfl
  channel x y hx hy hne hret := by
    by_cases hyi : y = i
    · subst hyi
      exact hinto x hx hy hne hret
    · rw [hnode y hyi] at hret
      by_cases hxi : x = i
      · subst hxi
        exact hout y hy hyi (h.channel x y hx hy hne hret)
      · exact (h.channel x y hx hy hne hret).congr (hnode x hxi) (hnode y hyi) (hcall x hxi)
          (hcall y hyi) (hqueue x y hxi hyi)

/-- **A pass of the loop keeps the invariant.** -/
theorem Wired.advance {rand : SealRandomness S} (h : Wired g s) (hi : i.val < g.n)
    (hphase : (s.nodes i).phase = .running) (hadv : Advanced g i rand (s.nodes i) o v) :
    Wired g { s with
      nodes := Function.update s.nodes i v
      call := Function.update s.call i (startCall v) } := by
  obtain ⟨hcollected, hcases⟩ := hadv.calls hphase
  have hnone : s.call i = none := (h.inCall i).call_none fun w hw => by
    cases hphase.symm.trans hw
  have hback : ∀ r, (s.nodes i).phase ≠ .returned r := fun r hr => by
    cases hphase.symm.trans hr
  refine h.of_party (i := i) (fun x hx => Function.update_of_ne hx _ _)
    (fun x hx => Function.update_of_ne hx _ _) (fun _ _ _ _ => rfl) ?_ ?_
    (fun y hy hyi hold => ?_) (fun x hx _ hxi _ => ?_)
  · dsimp only
    rw [Function.update_self]
    rcases hcases with ⟨hsame, -, -⟩ | ⟨payload, w, hmore, -, -⟩
    · exact hsame ▸ List.prefix_rfl
    · rw [hmore]
      exact List.prefix_append _ _
  · rcases hcases with ⟨-, hno, hours⟩ | ⟨payload, w, hmore, hw, hours⟩
    · refine .idle ?_ ?_
      · dsimp only
        rw [Function.update_self]
        exact hno
      · exact (Function.update_self ..).trans (by rw [startCall, hours]; rfl)
    · have hstart : startCall v = some (.sending 0 payload) := by rw [startCall, hours]; rfl
      constructor <;> simp only [Function.update_self, hstart]
      · exact fun _ _ => hi
      · exact fun _ _ => ⟨_, rfl⟩
      · exact fun hno => absurd hw (hno w)
      · intro k ours hk
        cases hk
        rw [hmore, List.getLast?_concat]
      · intro k slots hk
        cases hk
      · intro k slots hk
        cases hk
  · obtain ⟨m, htm, hmp, hq, hm⟩ := hold
    have hm := hm hback
    rw [hnone] at hm
    unfold Wires.Holds
    simp only [Function.update_self, Function.update_of_ne hyi]
    rcases hcases with ⟨hsame, -, hours⟩ | ⟨payload, w, hmore, -, hours⟩
    · rw [hsame, startCall, hours]
      exact ⟨m, htm, hmp, hq, fun _ => hm⟩
    · rw [hmore, startCall, hours, List.length_append]
      refine ⟨m, htm, by omega, ?_, fun _ => ?_⟩
      · rw [hq, window_append _ hmp]
      · rw [hm]
        rfl
  · have hnode : Function.update s.nodes i v x = s.nodes x := Function.update_of_ne hxi _ _
    have hcall : Function.update s.call i (startCall v) x = s.call x :=
      Function.update_of_ne hxi _ _
    refine (h.channel x i hx hi hxi hback).of_counts ?_ ?_ (fun hret => ⟨?_, ?_⟩) rfl
    · exact congrArg Node.posted hnode
    · simp only [Function.update_self]
      rw [hnone, hcollected]
      rcases hcases with ⟨-, -, hours⟩ | ⟨payload, w, -, -, hours⟩
      · rw [startCall, hours, Option.map_none]
      · rw [startCall, hours]
        rfl
    · intro r
      exact hnode ▸ hret r
    · simp only [hcall]

section Call

variable {call call' : Call} {queue : Channel → List Bytes} {w : Bool}

/-- A call that moves on without a send to `y`. -/
theorem Wires.Holds.sender {y : PartyIndex} (h : s.Holds i y) (hy : y ≠ i)
    (hcall : s.call i = some call)
    (hsent : sentCount (some call') (s.nodes i).posted.length y =
      sentCount (some call) (s.nodes i).posted.length y)
    (hqueue : queue ⟨i, y⟩ = s.queue ⟨i, y⟩) :
    { s with call := Function.update s.call i (some call'), queue := queue }.Holds i y := by
  refine h.of_counts rfl ?_ (fun hret => ⟨hret, ?_⟩) hqueue
  · simp only [Function.update_of_ne hy]
  · simp only [Function.update_self, hcall, hsent]

/-- A call that moves on without a receive from `x`. -/
theorem Wires.Holds.receiver {x : PartyIndex} (h : s.Holds x i) (hx : x ≠ i)
    (hcall : s.call i = some call)
    (htaken : takenCount (some call') (s.nodes i).collected x =
      takenCount (some call) (s.nodes i).collected x)
    (hqueue : queue ⟨x, i⟩ = s.queue ⟨x, i⟩) :
    { s with call := Function.update s.call i (some call'), queue := queue }.Holds x i := by
  refine h.of_counts rfl ?_ (fun hret => ⟨hret, ?_⟩) hqueue
  · simp only [Function.update_self, hcall, htaken]
  · simp only [Function.update_of_ne hx]

/-- A call of party `i` that moves on. -/
theorem Wired.of_call (h : Wired g s) (hphase : (s.nodes i).phase = .exchanging w)
    (hqueue : ∀ x y, x ≠ i → y ≠ i → queue ⟨x, y⟩ = s.queue ⟨x, y⟩)
    (hours : ∀ k ours, call' = .sending k ours → (s.nodes i).posted.getLast? = some ours)
    (hslots : ∀ k slots, call' = .receiving k slots → slots = s.slotsOf g.n i k ∧
      ∀ l : PartyIndex, l.val < g.n → l = i ∨ l.val < k →
        (s.nodes i).collected < (s.nodes l).posted.length)
    (hout : ∀ y, y.val < g.n → y ≠ i → s.Holds i y →
      { s with call := Function.update s.call i (some call'), queue := queue }.Holds i y)
    (hinto : ∀ x, x.val < g.n → x ≠ i → s.Holds x i →
      { s with call := Function.update s.call i (some call'), queue := queue }.Holds x i) :
    Wired g { s with call := Function.update s.call i (some call'), queue := queue } := by
  have hback : ∀ r, (s.nodes i).phase ≠ .returned r := fun r hr => by
    cases hphase.symm.trans hr
  have hupdate : Function.update s.call i (some call') i = some call' := Function.update_self ..
  refine h.of_party (i := i) (fun _ _ => rfl) (fun x hx => Function.update_of_ne hx _ _) hqueue
    List.prefix_rfl ?_ hout fun x hx hi hxi _ => hinto x hx hxi (h.channel x i hx hi hxi hback)
  exact {
    bound := (h.inCall i).bound
    call_some := fun _ _ => ⟨call', hupdate⟩
    call_none := fun hno => absurd hphase (hno w)
    ours := fun k ours hk => hours k ours (Option.some.inj (hupdate.symm.trans hk))
    slots := fun k slots hk => (hslots k slots (Option.some.inj (hupdate.symm.trans hk))).1
    present := fun k slots hk => (hslots k slots (Option.some.inj (hupdate.symm.trans hk))).2 }

/-- The payload of a party's call is its newest one. -/
theorem getElem?_of_getLast? {posted : List Bytes} {ours : Bytes} {k : Nat}
    (hlen : posted.length = k + 1) (h : posted.getLast? = some ours) : posted[k]? = some ours := by
  rw [List.getLast?_eq_getElem?, hlen] at h
  exact h

/-- A call that turns to receiving holds its own payload only. -/
theorem slotsOf_zero (hi : i.val < g.n) {ours : Bytes}
    (hours : (s.nodes i).posted[(s.nodes i).collected]? = some ours) :
    (List.replicate g.n none).set i.val (some ours) = s.slotsOf g.n i 0 := by
  refine ext_parties g.n_lt ?_ ?_ fun l hl => ?_
  · rw [List.length_set, List.length_replicate]
  · rw [Wires.slotsOf, List.length_map, length_parties]
  · rw [Wires.slotsOf, getElem?_map_parties _ hl]
    by_cases hli : l = i
    · subst hli
      rw [if_pos (.inl rfl), hours, List.getElem?_set_self (by rw [List.length_replicate]; exact hl)]
    · have hval : i.val ≠ l.val := fun hil => hli (Fin.ext hil.symm)
      rw [if_neg (by rintro (h | h); exacts [hli h, Nat.not_lt_zero _ h]),
        List.getElem?_set_ne hval, List.getElem?_replicate, if_pos hl]

/-- A receive fills the slot of its sender. -/
theorem slotsOf_succ {l : PartyIndex} {payload : Bytes} (hl : l.val < g.n)
    (hpayload : (s.nodes l).posted[(s.nodes i).collected]? = some payload) :
    (s.slotsOf g.n i l.val).set l.val (some payload) = s.slotsOf g.n i (l.val + 1) := by
  refine ext_parties g.n_lt ?_ ?_ fun x hx => ?_
  · rw [List.length_set, Wires.slotsOf, List.length_map, length_parties]
  · rw [Wires.slotsOf, List.length_map, length_parties]
  · by_cases hxl : x = l
    · subst hxl
      rw [List.getElem?_set_self (by rw [Wires.slotsOf, List.length_map, length_parties]; exact hl),
        Wires.slotsOf, getElem?_map_parties _ hl, if_pos (.inr (Nat.lt_succ_self _)), hpayload]
    · have hval : x.val ≠ l.val := fun h => hxl (Fin.ext h)
      have hiff : (x = i ∨ x.val < l.val) ↔ (x = i ∨ x.val < l.val + 1) := by
        rw [show x.val < l.val + 1 ↔ x.val < l.val by omega]
      rw [List.getElem?_set_ne (Ne.symm hval), Wires.slotsOf, Wires.slotsOf,
        getElem?_map_parties _ hx, getElem?_map_parties _ hx]
      simp only [hiff]

theorem sentCount_succ {k n : Nat} {ours : Bytes} {y : PartyIndex} (hy : y.val ≠ k) :
    sentCount (some (.sending (k + 1) ours)) n y = sentCount (some (.sending k ours)) n y := by
  simp only [sentCount]
  split <;> split <;> omega

theorem takenCount_succ {k n : Nat} {slots slots' : List (Option Bytes)} {x : PartyIndex}
    (hx : x.val ≠ k) : takenCount (some (.receiving (k + 1) slots')) n x =
      takenCount (some (.receiving k slots)) n x := by
  simp only [takenCount]
  split <;> split <;> omega

theorem update_sender {x y l : PartyIndex} (hx : x ≠ i) (queue : Channel → List Bytes)
    (payloads : List Bytes) :
    Function.update queue ⟨i, l⟩ payloads ⟨x, y⟩ = queue ⟨x, y⟩ :=
  Function.update_of_ne (fun heq => hx (congrArg Channel.sender heq)) _ _

theorem update_receiver {x y l : PartyIndex} (hy : y ≠ i) (queue : Channel → List Bytes)
    (payloads : List Bytes) :
    Function.update queue ⟨l, i⟩ payloads ⟨x, y⟩ = queue ⟨x, y⟩ :=
  Function.update_of_ne (fun heq => hy (congrArg Channel.receiver heq)) _ _

/-- The channel that a party sends into. -/
theorem Wires.Holds.pushed {y : PartyIndex} {ours : Bytes} (h : s.Holds i y) (hy : y ≠ i)
    (hlen : (s.nodes i).posted.length = (s.nodes i).collected + 1)
    (hphase : (s.nodes i).phase = .exchanging w) (hcall : s.call i = some (.sending y.val ours))
    (hours : (s.nodes i).posted.getLast? = some ours) :
    { s with
      call := Function.update s.call i (some (.sending (y.val + 1) ours))
      queue := Function.update s.queue ⟨i, y⟩ (s.queue ⟨i, y⟩ ++ [ours]) }.Holds i y := by
  obtain ⟨m, htm, hmp, hq, hm⟩ := h
  have hm := hm fun r hr => by cases hphase.symm.trans hr
  rw [hcall, sentCount, if_neg (Nat.lt_irrefl _), hlen, Nat.add_sub_cancel] at hm
  subst hm
  unfold Wires.Holds
  simp only [Function.update_self, Function.update_of_ne hy]
  refine ⟨(s.nodes i).collected + 1, by omega, by omega, ?_, fun _ => ?_⟩
  · rw [hq, window_push htm (getElem?_of_getLast? hlen hours)]
  · rw [sentCount, if_pos (Nat.lt_succ_self _), hlen]

/-- The channel that a party receives from. -/
theorem Wires.Holds.popped {x : PartyIndex} {payload : Bytes} {rest : List Bytes}
    {slots : List (Option Bytes)} (slots' : List (Option Bytes)) (h : s.Holds x i) (hx : x ≠ i)
    (hcall : s.call i = some (.receiving x.val slots)) (hqueue : s.queue ⟨x, i⟩ = payload :: rest) :
    (s.nodes x).posted[(s.nodes i).collected]? = some payload ∧
    { s with
      call := Function.update s.call i (some (.receiving (x.val + 1) slots'))
      queue := Function.update s.queue ⟨x, i⟩ rest }.Holds x i := by
  obtain ⟨m, htm, hmp, hq, hm⟩ := h
  rw [hcall, takenCount, if_neg (Nat.lt_irrefl _)] at htm hq
  obtain ⟨hpayload, hlt, hrest⟩ := window_pop (hq.symm.trans hqueue)
  refine ⟨hpayload, ?_⟩
  unfold Wires.Holds
  simp only [Function.update_self, Function.update_of_ne hx]
  rw [takenCount, if_pos (Nat.lt_succ_self _)]
  exact ⟨m, hlt, hmp, hrest, hm⟩

/-- A party skips itself when it sends. -/
theorem Wired.skipSend {ours : Bytes} (h : Wired g s) (hphase : (s.nodes i).phase = .exchanging w)
    (hcall : s.call i = some (.sending i.val ours)) :
    Wired g { s with call := Function.update s.call i (some (.sending (i.val + 1) ours)) } := by
  refine h.of_call hphase (fun _ _ _ _ => rfl) ?_ ?_ (fun y _ hyi hold => ?_)
    (fun x _ hxi hold => hold.receiver hxi hcall rfl rfl)
  · intro k ours' hk
    cases hk
    exact (h.inCall i).ours _ _ hcall
  · intro k slots hk
    cases hk
  · exact hold.sender hyi hcall (sentCount_succ fun hval => hyi (Fin.ext hval)) rfl

theorem Wired.send {l : PartyIndex} {ours : Bytes} (h : Wired g s)
    (hlen : (s.nodes i).posted.length = (s.nodes i).collected + 1)
    (hphase : (s.nodes i).phase = .exchanging w) (hcall : s.call i = some (.sending l.val ours)) :
    Wired g { s with
      call := Function.update s.call i (some (.sending (l.val + 1) ours))
      queue := Function.update s.queue ⟨i, l⟩ (s.queue ⟨i, l⟩ ++ [ours]) } := by
  have hours := (h.inCall i).ours _ _ hcall
  refine h.of_call hphase (fun x y hx _ => update_sender hx _ _) ?_ ?_ (fun y hy hyi hold => ?_)
    (fun x _ hxi hold => hold.receiver hxi hcall rfl (update_sender hxi _ _))
  · intro k ours' hk
    cases hk
    exact hours
  · intro k slots hk
    cases hk
  · by_cases hyl : y = l
    · subst hyl
      exact hold.pushed hyi hlen hphase hcall hours
    · exact hold.sender hyi hcall (sentCount_succ fun hval => hyl (Fin.ext hval))
        (update_receiver hyl _ _)

/-- After the last send a party turns to receiving. -/
theorem Wired.turn {j : Nat} {ours : Bytes} (h : Wired g s)
    (hlen : (s.nodes i).posted.length = (s.nodes i).collected + 1)
    (hphase : (s.nodes i).phase = .exchanging w) (hcall : s.call i = some (.sending j ours))
    (hj : g.n ≤ j) :
    Wired g { s with
      call := Function.update s.call i
        (some (.receiving 0 ((List.replicate g.n none).set i.val (some ours)))) } := by
  have hours := getElem?_of_getLast? hlen ((h.inCall i).ours _ _ hcall)
  refine h.of_call hphase (fun _ _ _ _ => rfl) ?_ ?_ (fun y hy hyi hold => ?_)
    (fun x _ hxi hold => hold.receiver hxi hcall rfl rfl)
  · intro k ours' hk
    cases hk
  · intro k slots hk
    cases hk
    refine ⟨slotsOf_zero ((h.inCall i).bound w hphase) hours, fun l _ hlk => ?_⟩
    rcases hlk with rfl | hlk
    · omega
    · exact absurd hlk (Nat.not_lt_zero _)
  · refine hold.sender hyi hcall ?_ rfl
    rw [sentCount, sentCount, if_pos (by omega)]
    rintro j ours heq
    cases heq

/-- A party skips itself when it receives. -/
theorem Wired.skipReceive {slots : List (Option Bytes)} (h : Wired g s)
    (hphase : (s.nodes i).phase = .exchanging w)
    (hcall : s.call i = some (.receiving i.val slots)) :
    Wired g { s with call := Function.update s.call i (some (.receiving (i.val + 1) slots)) } := by
  have hself := h.inCall i
  have hval : ∀ x : PartyIndex, x ≠ i → x.val ≠ i.val := fun x hxi hx => hxi (Fin.ext hx)
  have hiff : ∀ x : PartyIndex, (x = i ∨ x.val < i.val + 1) ↔ (x = i ∨ x.val < i.val) := by
    intro x
    by_cases hxi : x = i
    · exact ⟨fun _ => .inl hxi, fun _ => .inl hxi⟩
    · have := hval x hxi
      rw [show x.val < i.val + 1 ↔ x.val < i.val by omega]
  refine h.of_call hphase (fun _ _ _ _ => rfl) ?_ ?_
    (fun y _ hyi hold => hold.sender hyi hcall rfl rfl)
    (fun x _ hxi hold => hold.receiver hxi hcall (takenCount_succ (hval x hxi)) rfl)
  · intro k ours hk
    cases hk
  · intro k slots' hk
    cases hk
    refine ⟨?_, fun l hl hlk => hself.present _ _ hcall l hl ((hiff l).1 hlk)⟩
    rw [hself.slots _ _ hcall]
    unfold Wires.slotsOf
    simp only [hiff]

theorem Wired.receive {l : PartyIndex} {payload : Bytes} {rest : List Bytes}
    {slots : List (Option Bytes)} (h : Wired g s) (hphase : (s.nodes i).phase = .exchanging w)
    (hcall : s.call i = some (.receiving l.val slots)) (hl : l.val < g.n) (hne : l ≠ i)
    (hqueue : s.queue ⟨l, i⟩ = payload :: rest) :
    Wired g { s with
      call := Function.update s.call i
        (some (.receiving (l.val + 1) (slots.set l.val (some payload))))
      queue := Function.update s.queue ⟨l, i⟩ rest } := by
  have hself := h.inCall i
  have hback : ∀ r, (s.nodes i).phase ≠ .returned r := fun r hr => by
    cases hphase.symm.trans hr
  obtain ⟨hpayload, hpopped⟩ := (h.channel l i hl (hself.bound w hphase) hne hback).popped
    (slots.set l.val (some payload)) hne hcall hqueue
  refine h.of_call hphase (fun x y _ hy => update_receiver hy _ _) ?_ ?_
    (fun y _ hyi hold => hold.sender hyi hcall rfl (update_receiver hyi _ _))
    (fun x _ hxi hold => ?_)
  · intro k ours hk
    cases hk
  · intro k slots' hk
    cases hk
    refine ⟨?_, fun x hx hxk => ?_⟩
    · rw [hself.slots _ _ hcall, slotsOf_succ hl hpayload]
    · by_cases hxl : x = l
      · subst hxl
        exact (List.getElem?_eq_some_iff.1 hpayload).1
      · have hval : x.val ≠ l.val := fun hxl' => hxl (Fin.ext hxl')
        refine hself.present _ _ hcall x hx (hxk.imp_right fun hlt => ?_)
        omega
  · by_cases hxl : x = l
    · subst hxl
      exact hpopped
    · exact hold.receiver hxi hcall (takenCount_succ fun hval => hxl (Fin.ext hval))
        (update_sender hxl _ _)

/-- **A step inside a call keeps the invariant.** -/
theorem Wired.continued (h : Wired g s) (hlen : (s.nodes i).posted.length =
    (s.nodes i).collected + 1) (hphase : (s.nodes i).phase = .exchanging w)
    (hcall : s.call i = some call)
    (hstep : Exchanged g.n i s.queue s.dropped call (.continued call' queue)) :
    Wired g { s with call := Function.update s.call i (some call'), queue := queue } := by
  cases hstep with
  | skipSend => exact h.skipSend hphase hcall
  | send => exact h.send hlen hphase hcall
  | turn ours hj => exact h.turn hlen hphase hcall hj
  | skipReceive => exact h.skipReceive hphase hcall
  | receive slots hl hne hqueue => exact h.receive hphase hcall hl hne hqueue

/-- **So does the return of a call.** -/
theorem Wired.done (h : Wired g s) (hphase : (s.nodes i).phase = .exchanging w) {j : Nat}
    {all : List Bytes} (hcall : s.call i = some (.receiving j (all.map some))) (hj : g.n ≤ j)
    (hcollect : (s.nodes i).collect g i w all = (o, v)) :
    Wired g { s with
      nodes := Function.update s.nodes i v
      call := Function.update s.call i none } := by
  obtain ⟨hposted, hcases⟩ := collect_cases hcollect
  have hback : ∀ r, (s.nodes i).phase ≠ .returned r := fun r hr => by
    cases hphase.symm.trans hr
  refine h.of_party (i := i) (fun x hx => Function.update_of_ne hx _ _)
    (fun x hx => Function.update_of_ne hx _ _) (fun _ _ _ _ => rfl) ?_ ?_
    (fun y hy hyi hold => ?_) (fun x hx hi hxi hret => ?_)
  · have hsame : (Function.update s.nodes i v i).posted = (s.nodes i).posted := by
      rw [Function.update_self, hposted]
    exact hsame ▸ List.prefix_rfl
  · refine .idle (fun w hw => ?_) (Function.update_self ..)
    dsimp only at hw
    rw [Function.update_self] at hw
    rcases hcases with ⟨r, hr⟩ | ⟨hrun, -⟩
    · cases hr.symm.trans hw
    · cases hrun.symm.trans hw
  · refine hold.of_counts ?_ ?_ (fun _ => ⟨hback, ?_⟩) rfl
    · simp only [Function.update_self, hposted]
    · simp only [Function.update_of_ne hyi]
    · simp only [Function.update_self, hcall]
      rfl
  · simp only [Function.update_self] at hret
    have hcollected : v.collected = (s.nodes i).collected + 1 := by
      rcases hcases with ⟨r, hr⟩ | ⟨-, hcollected⟩
      · exact absurd hr (hret r)
      · exact hcollected
    refine (h.channel x i hx hi hxi hback).of_counts ?_ ?_ (fun hret => ⟨?_, ?_⟩) rfl
    · simp only [Function.update_of_ne hxi]
    · simp only [Function.update_self, hcall, hcollected]
      rw [takenCount, takenCount, if_pos (by omega)]
      intro k slots hk
      cases hk
    · simp only [Function.update_of_ne hxi] at hret
      exact hret
    · simp only [Function.update_of_ne hxi]

/-- **And so does a failed call**: what the party has sent stays in the channels. -/
theorem Wired.failed (h : Wired g s) (result : Except String O) :
    Wired g { s with
      nodes := Function.update s.nodes i { s.nodes i with phase := .returned result }
      call := Function.update s.call i none } := by
  refine h.of_party (i := i) (fun x hx => Function.update_of_ne hx _ _)
    (fun x hx => Function.update_of_ne hx _ _) (fun _ _ _ _ => rfl) ?_ ?_
    (fun y hy hyi hold => ?_) (fun x hx hi hxi hret => ?_)
  · have hsame : (Function.update s.nodes i { s.nodes i with phase := .returned result } i).posted =
        (s.nodes i).posted := by
      rw [Function.update_self]
    exact hsame ▸ List.prefix_rfl
  · refine .idle (fun w hw => ?_) (Function.update_self ..)
    dsimp only at hw
    rw [Function.update_self] at hw
    cases hw
  · refine hold.of_counts ?_ ?_ (fun hret => ?_) rfl
    · simp only [Function.update_self]
    · simp only [Function.update_of_ne hyi]
    · simp only [Function.update_self] at hret
      exact absurd rfl (hret result)
  · simp only [Function.update_self] at hret
    exact absurd rfl (hret result)

theorem Wired.drop (h : Wired g s) (dropped : PartyIndex → Bool) :
    Wired g { s with dropped := dropped } :=
  ⟨fun x => { h.inCall x with }, h.channel⟩

end Call

/-- **Every step keeps the invariant.** -/
theorem Wired.step (h : Wired g s) (hcount : Counted s) (hstep : WireStepped g s a o s') :
    Wired g s' := by
  cases hstep with
  | advance hi hphase hadv => exact h.advance hi hphase (advanced_of_advance hadv)
  | @continued i call call' queue w hphase hcall hstep =>
    exact h.continued (hcount.exchanging i w hphase) hphase hcall hstep
  | done hphase hcall hj hcollect => exact h.done hphase hcall hj hcollect
  | failed hphase => exact h.failed _
  | drop hphase => exact h.drop _

end Invariant

/-! ## The mesh refines the exchange -/

section Refinement

variable {S : Suite} {σ O M : Type} {g : Group S σ O M} {s s' : Wires σ O M} {a : WireAction S}
  {o : Obs M} {i : PartyIndex} {init : PartyIndex → σ}

/-- The party's step without its position in the call. -/
def WireAction.erase : WireAction S → Action S
  | .advance i rand => .advance i rand
  | .exchange i => .collect i
  | .drop i => .collect i

def eraseTrace (tr : List (WireAction S × Obs M)) : Trace S M :=
  tr.map fun e => (e.1.erase, e.2)

/-- Observations about messages. -/
def Obs.shown : Obs M → Bool
  | .quiet => false
  | .ended => false
  | _ => true

theorem posts_filter_shown (l : List (Obs M)) : posts (l.filter Obs.shown) = posts l := by
  induction l with
  | nil => rfl
  | cons o l ih => cases o <;> simp [List.filter_cons, Obs.shown, posts, ih]

theorem emitted_filter_shown (k : Nat) (l : List (Obs M)) :
    emitted k (l.filter Obs.shown) = emitted k l := by
  induction l with
  | nil => rfl
  | cons o l ih =>
    cases o <;> simp [List.filter_cons, Obs.shown, emitted, ih, posts_filter_shown]

theorem handed_filter_shown (l : List (Obs M)) : handed (l.filter Obs.shown) = handed l := by
  induction l with
  | nil => rfl
  | cons o l ih => cases o <;> simp [List.filter_cons, Obs.shown, handed, ih]

theorem delivered_filter_shown (l : List (Obs M)) :
    delivered (l.filter Obs.shown) = delivered l := by
  induction l with
  | nil => rfl
  | cons o l ih => cases o <;> simp [List.filter_cons, Obs.shown, delivered, ih]

/-- Two traces say the same about every party's messages. -/
def SameMessages (tr tr' : Trace S M) : Prop :=
  ∀ i, (log i tr).filter Obs.shown = (log i tr').filter Obs.shown

theorem SameMessages.cons {tr tr' : Trace S M} (h : SameMessages tr tr') (a : Action S) (o : Obs M) :
    SameMessages ((a, o) :: tr) ((a, o) :: tr') := by
  intro i
  by_cases hi : a.party = i
  · rw [log_cons_self hi, log_cons_self hi, List.filter_cons, List.filter_cons, h i]
  · rw [log_cons_other hi, log_cons_other hi, h i]

theorem SameMessages.cons_hidden {tr tr' : Trace S M} (h : SameMessages tr tr') (a : Action S)
    {o : Obs M} (ho : o.shown = false) : SameMessages ((a, o) :: tr) tr' := by
  intro i
  by_cases hi : a.party = i
  · rw [log_cons_self hi, List.filter_cons, if_neg (by rw [ho]; exact Bool.false_ne_true), h i]
  · rw [log_cons_other hi, h i]

/-- The party's node over the abstract exchange: the same, except that a call which failed there has
not returned here. -/
def SameNode (v t : Node σ O M) : Prop :=
  t = v ∨ ∃ w, v.phase = .returned (.error "round exchange") ∧ t = { v with phase := .exchanging w }

theorem SameNode.posted {v t : Node σ O M} (h : SameNode v t) : t.posted = v.posted := by
  rcases h with rfl | ⟨w, -, rfl⟩ <;> rfl

theorem SameNode.eq {v t : Node σ O M} (h : SameNode v t) (hphase : ∀ r, v.phase ≠ .returned r) :
    t = v := by
  rcases h with rfl | ⟨w, hret, -⟩
  · rfl
  · exact absurd hret (hphase _)

structure Simulated (g : Group S σ O M) (tr : List (WireAction S × Obs M)) (s : Wires σ O M)
    (tr' : Trace S M) (t : Mesh σ O M) : Prop where
  wired : Wired g s
  node : ∀ i, SameNode (s.nodes i) (t i)
  messages : SameMessages (eraseTrace tr) tr'

theorem Simulated.counted {tr : List (WireAction S × Obs M)} {tr' : Trace S M} {t : Mesh σ O M}
    (h : Simulated g tr s tr' t) (hrun : Run (Steps g.step) (Group.start init) tr' t) :
    Counted s where
  running i hphase := by
    have heq := (h.node i).eq fun r hr => by cases hphase.symm.trans hr
    rw [← heq] at hphase ⊢
    exact (kept_run hrun i).running hphase
  exchanging i w hphase := by
    have heq := (h.node i).eq fun r hr => by cases hphase.symm.trans hr
    rw [← heq] at hphase ⊢
    exact ((kept_run hrun i).exchanging w hphase).1

/-- A call that is back has everyone's payload of that call. -/
theorem Wired.payloads (h : Wired g s) {t : Mesh σ O M} (hnode : ∀ i, SameNode (s.nodes i) (t i))
    {j : Nat} {all : List Bytes} (hcall : s.call i = some (.receiving j (all.map some)))
    (hj : g.n ≤ j) :
    g.allPosted t (s.nodes i).collected = true ∧ g.payloads t (s.nodes i).collected = all := by
  have hposted : ∀ l : PartyIndex, l.val < g.n →
      (s.nodes i).collected < (s.nodes l).posted.length := fun l hl =>
    (h.inCall i).present _ _ hcall l hl (.inr (by omega))
  constructor
  · refine List.all_eq_true.2 fun l hl => decide_eq_true ?_
    rw [(hnode l).posted]
    exact hposted l ((mem_parties g.n_lt).1 hl)
  · have hslots := (h.inCall i).slots _ _ hcall
    refine List.map_injective_iff.2 (Option.some_injective _) ?_
    rw [hslots, Group.payloads, Wires.slotsOf, List.map_map]
    refine List.map_congr_left fun l hl => ?_
    have hl := (mem_parties g.n_lt).1 hl
    rw [if_pos (.inr (by omega)), Function.comp_apply, (hnode l).posted,
      List.getElem?_eq_getElem (hposted l hl), Option.getD_some]

theorem Simulated.step {tr : List (WireAction S × Obs M)} {tr' : Trace S M} {t : Mesh σ O M}
    (h : Simulated g tr s tr' t) (hrun : Run (Steps g.step) (Group.start init) tr' t)
    (hstep : WireStepped g s a o s') :
    ∃ tr'' t', Run (Steps g.step) t tr'' t' ∧ Simulated g ((a, o) :: tr) s' (tr'' ++ tr') t' := by
  have hwired := h.wired.step (h.counted hrun) hstep
  -- an update of one party on both sides
  have hupdate : ∀ (i : PartyIndex) (v : Node σ O M) (x : PartyIndex),
      SameNode (Function.update s.nodes i v x) (Function.update t i v x) := by
    intro i v x
    by_cases hx : x = i
    · subst hx
      rw [Function.update_self, Function.update_self]
      exact .inl rfl
    · rw [Function.update_of_ne hx, Function.update_of_ne hx]
      exact h.node x
  cases hstep with
  | @advance i rand o v hi hphase hadv =>
    have hti : t i = s.nodes i := (h.node i).eq fun r hr => by cases hphase.symm.trans hr
    refine ⟨[(.advance i rand, o)], Function.update t i v, .next .start ?_, hwired, hupdate i v,
      h.messages.cons (.advance i rand) o⟩
    unfold Steps Group.step
    dsimp only
    rw [if_pos hi, hti, hphase]
    dsimp only
    rw [hadv]
  | @continued i call call' queue w hphase hcall hstep =>
    exact ⟨[], t, .start, hwired, h.node, h.messages.cons_hidden _ rfl⟩
  | @done i j all w o v hphase hcall hj hcollect =>
    have hti : t i = s.nodes i := (h.node i).eq fun r hr => by cases hphase.symm.trans hr
    obtain ⟨hposted, hpayloads⟩ := h.wired.payloads h.node hcall hj
    refine ⟨[(.collect i, o)], Function.update t i v, .next .start ?_, hwired, hupdate i v,
      h.messages.cons (.collect i) o⟩
    unfold Steps Group.step
    dsimp only
    rw [if_pos ((h.wired.inCall i).bound w hphase), hti, hphase]
    dsimp only
    rw [if_pos hposted, hpayloads, hcollect]
  | @failed i w hphase =>
    refine ⟨[], t, .start, hwired, fun x => ?_, h.messages.cons_hidden _ rfl⟩
    by_cases hx : x = i
    · subst hx
      refine .inr ⟨w, ?_, ?_⟩
      · dsimp only
        rw [Function.update_self]
      · rw [(h.node x).eq fun r hr => by cases hphase.symm.trans hr]
        simp only [Function.update_self, ← hphase]
    · dsimp only
      rw [Function.update_of_ne hx]
      exact h.node x
  | drop hphase => exact ⟨[], t, .start, hwired, h.node, h.messages.cons_hidden _ rfl⟩

theorem simulated_run {tr : List (WireAction S × Obs M)}
    (h : Run (Steps (wireStep g)) (Wires.start init) tr s) :
    ∃ tr' t, Run (Steps g.step) (Group.start init) tr' t ∧ Simulated g tr s tr' t := by
  refine h.simulate ⟨wired_start g init, fun _ => .inl rfl, fun _ => rfl⟩ ?_
  intro tr s tr' t a o s' hrun hsim hstep
  exact hsim.step hrun (wireStepped_of_step hstep)

/-- **Parties over the mesh are parties over the exchange.**  Whatever order the sends, receives and
drops of endpoints come in, every party's variables and messages are those of a run where each call
hands everyone the payloads of that same call at once; only a call that failed over the mesh is a
call that does not return there. -/
theorem mesh_refines (g : Group S σ O M) (init : PartyIndex → σ) {tr : List (WireAction S × Obs M)}
    {s : Wires σ O M} (hrun : Run (Steps (wireStep g)) (Wires.start init) tr s) :
    ∃ tr' t, Run (Steps g.step) (Group.start init) tr' t ∧ (∀ i, SameNode (s.nodes i) (t i)) ∧
      SameMessages (eraseTrace tr) tr' := by
  obtain ⟨tr', t, hrun', hsim⟩ := simulated_run hrun
  exact ⟨tr', t, hrun', hsim.node, hsim.messages⟩

/-! ## Deliveries over the mesh -/

section SameMessages

variable {tr tr' : Trace S M}

theorem SameMessages.emitted_eq (h : SameMessages tr tr') (i : PartyIndex) (k : Nat) :
    emitted k (log i tr) = emitted k (log i tr') := by
  rw [← emitted_filter_shown, h i, emitted_filter_shown]

theorem SameMessages.handed_eq (h : SameMessages tr tr') (i : PartyIndex) :
    handed (log i tr) = handed (log i tr') := by
  rw [← handed_filter_shown, h i, handed_filter_shown]

theorem SameMessages.delivered_eq (h : SameMessages tr tr') (i : PartyIndex) :
    delivered (log i tr) = delivered (log i tr') := by
  rw [← delivered_filter_shown, h i, delivered_filter_shown]

theorem SameMessages.sentTo_eq (h : SameMessages tr tr') (n : Nat) (i : PartyIndex) (k : Nat) :
    sentTo n tr i k = sentTo n tr' i k := by
  unfold sentTo
  simp only [h.emitted_eq]

theorem SameMessages.atMostOnce (h : SameMessages tr tr') (honce : AtMostOnce tr) :
    AtMostOnce tr' := by
  intro i k
  rw [← h.emitted_eq]
  exact honce i k

theorem SameMessages.addressedTo (h : SameMessages tr tr') {i : PartyIndex} {m : Envelope M}
    (hm : AddressedTo tr' i m) : AddressedTo tr i m := by
  have hmem : ∀ d m' j, Obs.emitted d m' ∈ log j tr' → Obs.emitted d m' ∈ log j tr := by
    intro d m' j hj
    have hshown : Obs.emitted d m' ∈ (log j tr).filter Obs.shown := by
      rw [h j]
      exact List.mem_filter.2 ⟨hj, rfl⟩
    exact (List.mem_filter.1 hshown).1
  exact ⟨hm.sender_ne, hm.emitted.imp (fun hb => ⟨hb.1, hmem _ _ _ hb.2⟩)
    fun hp => ⟨hp.1, hmem _ _ _ hp.2⟩⟩

end SameMessages

/-- **Every message crosses the mesh once, in order.**  A step of a call leaves the party's variables
alone, or ends in an error, or returns with exactly the messages that the others emitted to this
party since the call before, in ascending order of the senders.  Over the whole run the numbers
increase, messages are handed over in that order, and each was emitted to its receiver by the sender
it names. -/
theorem mesh_delivers (g : Group S σ O M) (init : PartyIndex → σ)
    {tr : List (WireAction S × Obs M)} {s : Wires σ O M}
    (hrun : Run (Steps (wireStep g)) (Wires.start init) tr s)
    (honce : AtMostOnce (eraseTrace tr)) :
    (∀ i o s', wireStep g s (.exchange i) = some (o, s') →
      o = .quiet ∧ s'.nodes = s.nodes ∨
      o = .ended ∧ (s'.nodes i).phase = .returned (.error "round exchange") ∨
      ∃ queue, o = .delivered queue ∧ (s'.nodes i).driver.incoming = queue ∧
        queue.map Incoming.envelope = sentTo g.n (eraseTrace tr) i (s.nodes i).collected ∧
        queue.Pairwise (fun m m' => m.sender ≤ m'.sender)) ∧
    ∀ i, (delivered (log i (eraseTrace tr))).Pairwise (fun m m' => m.id < m'.id) ∧
      delivered (log i (eraseTrace tr)) =
        handed (log i (eraseTrace tr)) ++ (s.nodes i).driver.incoming ∧
      ∀ m ∈ delivered (log i (eraseTrace tr)), AddressedTo (eraseTrace tr) i m.envelope := by
  obtain ⟨tr', t, hrun', hsim⟩ := simulated_run hrun
  have hkept := kept_run hrun'
  have hsame := hsim.messages
  refine ⟨fun i o s' hstep => ?_, fun i => ⟨?_, ?_, fun m hm => ?_⟩⟩
  · generalize ha : (WireAction.exchange i : WireAction S) = a at hstep
    cases wireStepped_of_step hstep with
    | advance => cases ha
    | drop => cases ha
    | continued => exact .inl ⟨rfl, rfl⟩
    | failed =>
      cases ha
      refine .inr (.inl ⟨rfl, ?_⟩)
      simp only [Function.update_self]
    | @done i' j all w o v hphase hcall hj hcollect =>
      cases ha
      have hti : t i = s.nodes i := (hsim.node i).eq fun r hr => by cases hphase.symm.trans hr
      obtain ⟨hposted, hpayloads⟩ := hsim.wired.payloads hsim.node hcall hj
      rw [← hti] at hposted hpayloads hcollect hphase
      rw [← hpayloads] at hcollect
      obtain ⟨received, hreceive⟩ :=
        receive_payloads hkept ((hsim.wired.inCall i).bound w (hti ▸ hphase)) hposted
      obtain ⟨-, ho, hincoming⟩ := (hkept i).collected hphase hreceive hcollect
      have henvelopes := map_envelope_number (t i).driver.nextId
        (lastSentTo g.n tr' i (t i).collected)
      rw [lastSentTo_eq (hsame.atMostOnce honce)] at ho hincoming henvelopes
      have hsorted := sentTo_sorted g.n_lt tr' i (t i).collected
      rw [← henvelopes, List.pairwise_map] at hsorted
      refine .inr (.inr ⟨_, ho, ?_, ?_, hsorted⟩)
      · simp only [Function.update_self, hincoming]
      · rw [henvelopes, hsame.sentTo_eq, hti]
  · have hids : ((delivered (log i tr')).map Incoming.id).Pairwise (· < ·) := by
      rw [(hkept i).ids]
      exact List.pairwise_lt_range
    rw [hsame.delivered_eq]
    exact List.pairwise_map.1 hids
  · have hdriver : (t i).driver = (s.nodes i).driver := by
      rcases hsim.node i with heq | ⟨w, -, heq⟩ <;> rw [heq]
    rw [hsame.delivered_eq, hsame.handed_eq, ← hdriver]
    exact (hkept i).queue
  · rw [hsame.delivered_eq] at hm
    exact hsame.addressedTo (addressed_run hrun' hm)

/-! ## No call waits for ever -/

def WireAction.isExchange (i : PartyIndex) : WireAction S → Bool
  | .exchange j => decide (j = i)
  | _ => false

/-- Steps of a party inside calls. -/
def callSteps (i : PartyIndex) (tr : List (WireAction S × Obs M)) : Nat :=
  tr.countP fun e => e.1.isExchange i

/-- Steps left in a call. -/
def remaining (n : Nat) : Option Call → Nat
  | none => 0
  | some (.sending j _) => n - j + n + 2
  | some (.receiving j _) => n - j + 1

theorem remaining_le (n : Nat) (call : Option Call) : remaining n call ≤ 2 * n + 2 := by
  cases call with
  | none => exact Nat.zero_le _
  | some call => cases call <;> simp only [remaining] <;> omega

theorem Exchanged.remaining_lt {n : Nat} {queue queue' : Channel → List Bytes}
    {dropped : PartyIndex → Bool} {call call' : Call} (hi : i.val < n)
    (h : Exchanged n i queue dropped call (.continued call' queue')) :
    remaining n (some call') < remaining n (some call) := by
  cases h <;> simp only [remaining] <;> omega

/-- A party's calls only get shorter until its next pass. -/
theorem WireStepped.remaining_le (h : WireStepped g s a o s') (hwired : Wired g s)
    (hadv : ∀ rand, a ≠ .advance i rand) :
    (if a.isExchange i then 1 else 0) + remaining g.n (s'.call i) ≤
      remaining g.n (s.call i) := by
  -- steps of others leave the call alone
  have hother : ∀ {l : PartyIndex} {c : Option Call}, l ≠ i →
      Function.update s.call l c i = s.call i := fun hl => Function.update_of_ne (Ne.symm hl) _ _
  cases h with
  | @advance l rand =>
    have hl : l ≠ i := by
      rintro rfl
      exact hadv rand rfl
    simp [WireAction.isExchange, hother hl]
  | @continued l call call' queue w hphase hcall hstep =>
    by_cases hl : l = i
    · subst hl
      have hlt := hstep.remaining_lt ((hwired.inCall l).bound w hphase)
      simp only [WireAction.isExchange, decide_true, if_true, Function.update_self, hcall]
      omega
    · simp [WireAction.isExchange, hother hl, hl]
  | @done l j all w o v hphase hcall hj hcollect =>
    by_cases hl : l = i
    · subst hl
      simp only [WireAction.isExchange, decide_true, if_true, Function.update_self, hcall,
        remaining]
      omega
    · simp [WireAction.isExchange, hother hl, hl]
  | @failed l w hphase =>
    by_cases hl : l = i
    · subst hl
      obtain ⟨c, hc⟩ := (hwired.inCall l).call_some w hphase
      simp only [WireAction.isExchange, decide_true, if_true, Function.update_self, hc]
      cases c <;> simp only [remaining] <;> omega
    · simp [WireAction.isExchange, hother hl, hl]
  | drop => simp [WireAction.isExchange]

theorem callSteps_le {tr tr' : List (WireAction S × Obs M)}
    (hrun : Run (Steps (wireStep g)) (Wires.start init) tr s)
    (hmore : Run (Steps (wireStep g)) s tr' s') (hadv : ∀ e ∈ tr', ∀ rand, e.1 ≠ .advance i rand) :
    callSteps i tr' + remaining g.n (s'.call i) ≤ remaining g.n (s.call i) := by
  induction hmore with
  | start => exact Nat.le_of_eq (Nat.zero_add _)
  | @next tr' s₁ s₂ a o hmore hstep ih =>
    have hold := ih fun e he => hadv e (List.mem_cons_of_mem _ he)
    obtain ⟨_, _, -, hsim⟩ := simulated_run (hrun.append hmore)
    have hnew := (wireStepped_of_step hstep).remaining_le hsim.wired
      (hadv (a, o) (List.mem_cons_self ..))
    unfold callSteps at hold ⊢
    rw [List.countP_cons]
    dsimp only
    omega

/-- Only endpoints of parties that have returned are dropped. -/
theorem WireStepped.dropped (h : WireStepped g s a o s')
    (hdropped : ∀ i, s.dropped i = true → ∃ r, (s.nodes i).phase = .returned r) (i : PartyIndex)
    (hi : s'.dropped i = true) : ∃ r, (s'.nodes i).phase = .returned r := by
  -- a party that steps has not returned, so its endpoint is still there
  have hkeep : ∀ {l : PartyIndex} {v : Node σ O M}, (∀ r, (s.nodes l).phase ≠ .returned r) →
      s.dropped i = true → ∃ r, (Function.update s.nodes l v i).phase = .returned r := by
    intro l v hl hi
    obtain ⟨r, hr⟩ := hdropped i hi
    have hne : i ≠ l := by
      rintro rfl
      exact hl r hr
    rw [Function.update_of_ne hne]
    exact ⟨r, hr⟩
  cases h with
  | advance _ hphase => exact hkeep (fun r hr => by cases hphase.symm.trans hr) hi
  | continued => exact hdropped i hi
  | done hphase => exact hkeep (fun r hr => by cases hphase.symm.trans hr) hi
  | failed hphase => exact hkeep (fun r hr => by cases hphase.symm.trans hr) hi
  | @drop l r hphase =>
    by_cases hl : i = l
    · subst hl
      exact ⟨r, hphase⟩
    · dsimp only at hi
      rw [Function.update_of_ne hl] at hi
      exact hdropped i hi

/-- A call can go on, unless it waits for a party whose channel is empty. -/
theorem exchange_enabled (hwired : Wired g s) {w : Bool}
    (hphase : (s.nodes i).phase = .exchanging w) :
    (wireStep g s (.exchange i)).isSome ∨ ∃ (l : PartyIndex) (slots : List (Option Bytes)),
      l.val < g.n ∧ l ≠ i ∧ s.call i = some (.receiving l.val slots) ∧ s.queue ⟨l, i⟩ = [] ∧
        s.dropped l = false := by
  obtain ⟨call, hcall⟩ := (hwired.inCall i).call_some w hphase
  have hstep := exchanged (i := i) g.n_lt s.queue s.dropped call
  unfold wireStep
  dsimp only
  rw [hphase, hcall]
  dsimp only
  split
  · exact .inl rfl
  · rename_i heq
    rw [heq] at hstep
    cases hstep with
    | blocked slots hl hne hempty hopen => exact .inr ⟨_, slots, hl, hne, rfl, hempty, hopen⟩
  · exact .inl rfl
  · exact .inl rfl

/-- **Calls over the mesh neither wait in a circle nor go on for ever.**  While a party has not
returned, some party can make a pass or a step of its call, or some party has returned and its
endpoint is still to be dropped; and a party makes at most `2n + 2` steps between two passes, however
the others are scheduled. -/
theorem mesh_progress (g : Group S σ O M) (init : PartyIndex → σ)
    {tr : List (WireAction S × Obs M)} {s : Wires σ O M}
    (hrun : Run (Steps (wireStep g)) (Wires.start init) tr s) :
    (∀ i : PartyIndex, i.val < g.n → (∀ r, (s.nodes i).phase ≠ .returned r) →
      (∃ j, (∀ rand, (wireStep g s (.advance j rand)).isSome) ∨
        (wireStep g s (.exchange j)).isSome) ∨
      ∃ l : PartyIndex, (∃ r, (s.nodes l).phase = .returned r) ∧ s.dropped l = false) ∧
    ∀ i tr' s', Run (Steps (wireStep g)) s tr' s' →
      (∀ e ∈ tr', ∀ rand, e.1 ≠ .advance i rand) → callSteps i tr' ≤ 2 * g.n + 2 := by
  obtain ⟨tr₁, t, hrun₁, hsim⟩ := simulated_run hrun
  have hcount := hsim.counted hrun₁
  have hwired := hsim.wired
  have hdropped : ∀ i, s.dropped i = true → ∃ r, (s.nodes i).phase = .returned r := by
    refine Run.invariant (P := fun s => ∀ i, s.dropped i = true →
      ∃ r, (s.nodes i).phase = .returned r) (fun i hi => by cases hi) ?_ hrun
    exact fun s a o s' hP hstep => (wireStepped_of_step hstep).dropped hP
  constructor
  · intro i₀ hi₀ hback₀
    by_contra hstuck
    push Not at hstuck
    obtain ⟨hnone, hgone⟩ := hstuck
    -- a party that has not returned is in a call
    have hexchanging : ∀ i : PartyIndex, i.val < g.n → (∀ r, (s.nodes i).phase ≠ .returned r) →
        ∃ w, (s.nodes i).phase = .exchanging w := by
      intro i hi hback
      cases hphase : (s.nodes i).phase with
      | running =>
        obtain ⟨⟨rand, hrand⟩, -⟩ := hnone i
        unfold wireStep at hrand
        dsimp only at hrand
        rw [if_pos hi, hphase] at hrand
        exact absurd rfl hrand
      | exchanging w => exact ⟨w, rfl⟩
      | returned r => exact absurd hphase (hback r)
    -- the one that is furthest behind waits for nobody
    obtain ⟨i, ⟨hi, hback⟩, hmin⟩ := WellFounded.has_min
      (measure fun i : PartyIndex => (s.nodes i).collected).wf
      {i | i.val < g.n ∧ ∀ r, (s.nodes i).phase ≠ .returned r} ⟨i₀, hi₀, hback₀⟩
    obtain ⟨w, hphase⟩ := hexchanging i hi hback
    rcases exchange_enabled hwired hphase with hsome | ⟨l, slots, hl, hne, hcall, hempty, hopen⟩
    · exact (hnone i).2 hsome
    · have hbackl : ∀ r, (s.nodes l).phase ≠ .returned r := fun r hr => by
        have hdrop := hgone l ⟨r, hr⟩
        exact hdrop hopen
      obtain ⟨wl, hphasel⟩ := hexchanging l hl hbackl
      have hle : (s.nodes i).collected ≤ (s.nodes l).collected :=
        Nat.le_of_not_lt (hmin l ⟨hl, hbackl⟩)
      have hlen := hcount.exchanging l wl hphasel
      obtain ⟨m, -, hmp, hq, hm⟩ := hwired.channel l i hl hi hne hback
      rw [hcall, takenCount, if_neg (Nat.lt_irrefl _)] at hq
      refine window_ne_nil ?_ hmp (hq.symm.trans hempty)
      rw [hm hbackl]
      rcases exchange_enabled hwired hphasel with hsome | ⟨l', slots', -, -, hcall', -⟩
      · exact absurd hsome (hnone l).2
      · rw [hcall', sentCount]
        · omega
        · intro k ours hk
          cases hk
  · intro i tr' s' hmore hadv
    have hsteps := callSteps_le hrun hmore hadv
    have hleft := remaining_le g.n (s.call i)
    omega

end Refinement

/-! ## A sample -/

/-- The second party's sends come between those of the first, which is back first. -/
def sampleWireActions : List (WireAction sampleSuite) :=
  [.advance 0 sampleRand, .advance 0 sampleRand, .advance 0 sampleRand, .exchange 0, .exchange 0,
    .advance 1 sampleRand, .advance 1 sampleRand, .advance 1 sampleRand, .exchange 1, .exchange 0,
    .exchange 1, .exchange 0, .exchange 0, .exchange 1, .exchange 1]

theorem sampleWireActions_accepted :
    (exec (wireStep samplePair) [] (Wires.start sampleScripts) sampleWireActions).isSome := by
  decide +kernel

def sampleWires : List (WireAction sampleSuite × Obs UInt8) ×
    Wires (List (ProceedResult Unit UInt8)) Unit UInt8 :=
  (exec (wireStep samplePair) [] (Wires.start sampleScripts) sampleWireActions).get
    sampleWireActions_accepted

theorem sampleWires_log :
    log 0 (eraseTrace sampleWires.1) = [.quiet, .quiet, .quiet, .quiet, .quiet, .posted,
        .emitted (.oneParty 1) 8, .emitted .allParties 5] ∧
      log 1 (eraseTrace sampleWires.1) = [.quiet, .quiet, .quiet, .quiet, .posted,
        .emitted (.oneParty 0) 6, .quiet] := by
  decide +kernel

theorem sampleWires_parties :
    ∀ e ∈ eraseTrace sampleWires.1, e.1.party = 0 ∨ e.1.party = 1 := by
  decide +kernel

theorem log_eq_nil {S : Suite} {M : Type} {i : PartyIndex} {tr : Trace S M}
    (h : ∀ e ∈ tr, e.1.party = 0 ∨ e.1.party = 1) (h0 : i ≠ 0) (h1 : i ≠ 1) : log i tr = [] := by
  unfold log
  rw [List.filterMap_eq_nil_iff]
  intro e he
  refine if_neg fun hi => ?_
  rcases h e he with hparty | hparty
  · exact h0 (hi.symm.trans hparty)
  · exact h1 (hi.symm.trans hparty)

/-- What is emitted is what it was without the wires. -/
theorem sampleWires_emitted (i : PartyIndex) (k : Nat) :
    emitted k (log i (eraseTrace sampleWires.1)) = emitted k (log i sampleEnd.1) := by
  by_cases h0 : i = 0
  · subst h0
    rw [sampleWires_log.1, sampleEnd_log.1]
    rfl
  · by_cases h1 : i = 1
    · subst h1
      rw [sampleWires_log.2, sampleEnd_log.2]
      rfl
    · rw [log_eq_nil sampleWires_parties h0 h1, log_eq_nil sampleEnd_parties h0 h1]

theorem sampleWires_atMostOnce : AtMostOnce (eraseTrace sampleWires.1) := by
  intro i k
  rw [sampleWires_emitted]
  exact sampleEnd_atMostOnce i k

def Phase.isReturned {O : Type} : Phase O → Bool
  | .returned _ => true
  | _ => false

theorem sampleWires_waiting (r : Except String Unit) :
    (sampleWires.2.nodes 0).phase ≠ .returned r := by
  have hphase : (sampleWires.2.nodes 0).phase.isReturned = false := by decide +kernel
  intro hr
  rw [hr] at hphase
  cases hphase

theorem mesh_refines_sample :
    ∃ tr' t, Run (Steps samplePair.step) (Group.start sampleScripts) tr' t ∧
      posts (log 0 tr') = 1 ∧ (t 0).posted = (sampleWires.2.nodes 0).posted := by
  obtain ⟨tr', t, hrun, hnode, hsame⟩ := mesh_refines samplePair sampleScripts
    (Run.of_isSome sampleWireActions_accepted)
  refine ⟨tr', t, hrun, ?_, (hnode 0).posted⟩
  have hlog : posts (log 0 (eraseTrace sampleWires.1)) = 1 := by
    rw [sampleWires_log.1]
    rfl
  rw [← posts_filter_shown, ← hsame 0, posts_filter_shown]
  exact hlog

theorem mesh_delivers_sample :
    ∃ queue s', wireStep samplePair sampleWires.2 (.exchange 0) = some (.delivered queue, s') ∧
      queue.map Incoming.envelope = sentTo 2 (eraseTrace sampleWires.1) 0 0 := by
  obtain ⟨hcall, -⟩ := mesh_delivers samplePair sampleScripts
    (Run.of_isSome sampleWireActions_accepted) sampleWires_atMostOnce
  have hobs : (wireStep samplePair sampleWires.2 (.exchange 0)).map Prod.fst =
      some (.delivered [⟨0, 1, .p2p, 6⟩]) := by decide +kernel
  obtain ⟨⟨o, s'⟩, hstep, ho⟩ := Option.map_eq_some_iff.1 hobs
  obtain rfl : o = _ := ho
  rcases hcall 0 _ s' hstep with ⟨hquiet, -⟩ | ⟨hended, -⟩ | ⟨queue, hqueue, -, hsent, -⟩
  · cases hquiet
  · cases hended
  · have hcollected : (sampleWires.2.nodes 0).collected = 0 := by decide +kernel
    refine ⟨queue, s', hqueue ▸ hstep, hsent.trans ?_⟩
    exact congrArg (sentTo 2 (eraseTrace sampleWires.1) 0) hcollected

theorem mesh_progress_sample :
    (∃ j, (∀ rand, (wireStep samplePair sampleWires.2 (.advance j rand)).isSome) ∨
      (wireStep samplePair sampleWires.2 (.exchange j)).isSome) ∨
    ∃ l : PartyIndex, (∃ r, (sampleWires.2.nodes l).phase = .returned r) ∧
      sampleWires.2.dropped l = false :=
  (mesh_progress samplePair sampleScripts (Run.of_isSome sampleWireActions_accepted)).1 0
    (by decide) sampleWires_waiting

end Experimint.ThresholdEcdsa
