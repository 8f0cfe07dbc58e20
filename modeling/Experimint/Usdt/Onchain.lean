import Mathlib.Algebra.BigOperators.Group.List.Basic
import Experimint.Usdt.InFlight

/-!
# The module next to the chain

The chain is a list of events, newest first: transfers to deposit accounts, executed operations, and
block boundaries.  `World` couples it with the module's database.  The chain moves by itself, and
may execute any operation that the module has enqueued, at most one for each sender and nonce; the
module moves by accepted items, as long as what it is told about the chain is true.

* `Chain.balance` is the token balance of an account after the events of a chain.
* `Usdt.truthful`: a deposit proof shows the balance at its block, and an applied confirmation
  reports an executed operation.
* `run_module`: seen from the module, a run of the world is a run of the module.
-/

set_option autoImplicit false

namespace Experimint.FedimintUsdt

open Books

/-- Tokens an operation moves out of its sender's account. -/
def UnsignedUserOp.transferred (op : UnsignedUserOp) : Nat :=
  match decodeTransferAmount op with
  | .ok amount => amount.raw
  | .error _ => 0

inductive ChainEvent
  | transfer (account : EvmAddress) (amount : Nat)
  | operation (op : UnsignedUserOp) (success : Bool)
  | block
deriving DecidableEq

namespace ChainEvent

def inflow (a : EvmAddress) : ChainEvent → Nat
  | .transfer account amount => if account = a then amount else 0
  | _ => 0

/-- Tokens that leave the account at a nonce that satisfies `p`. -/
def outflow (a : EvmAddress) (p : Nat → Bool) : ChainEvent → Nat
  | .operation op success =>
    if success = true ∧ op.sender = a ∧ p op.nonce = true then op.transferred else 0
  | _ => 0

def nonce : ChainEvent → Option (EvmAddress × Nat)
  | .operation op _ => some (op.sender, op.nonce)
  | _ => none

end ChainEvent

/-- Events of a chain, newest first. -/
abbrev Chain := List ChainEvent

namespace Chain

/-- Tokens the account has ever received. -/
def received (c : Chain) (a : EvmAddress) : Nat := (c.map (ChainEvent.inflow a)).sum

def outflow (c : Chain) (a : EvmAddress) (p : Nat → Bool) : Nat :=
  (c.map (ChainEvent.outflow a p)).sum

def balance (c : Chain) (a : EvmAddress) : Int := c.received a - c.outflow a fun _ => true

/-- Senders and nonces of the executed operations. -/
def nonces (c : Chain) : List (EvmAddress × Nat) := c.filterMap ChainEvent.nonce

/-- Number of blocks that are complete. -/
def height (c : Chain) : Nat := c.count .block

/-- The chain at the end of block `k`. -/
def upTo (k : Nat) : Chain → Chain
  | [] => []
  | e :: c => if height (e :: c) ≤ k then e :: c else upTo k c

variable {c : Chain} {a : EvmAddress} {p : Nat → Bool} {n : Nat} {op : UnsignedUserOp}
  {success : Bool}

theorem received_cons (e : ChainEvent) :
    received (e :: c) a = e.inflow a + c.received a := List.sum_cons

theorem outflow_cons (e : ChainEvent) :
    outflow (e :: c) a p = e.outflow a p + c.outflow a p := List.sum_cons

theorem mem_nonces (h : .operation op success ∈ c) : (op.sender, op.nonce) ∈ c.nonces :=
  List.mem_filterMap.2 ⟨_, h, rfl⟩

theorem of_mem_nonces (h : (a, n) ∈ c.nonces) :
    ∃ op success, .operation op success ∈ c ∧ op.sender = a ∧ op.nonce = n := by
  obtain ⟨e, he, hn⟩ := List.mem_filterMap.1 h
  cases e with
  | operation op success =>
    cases hn
    exact ⟨op, success, he, rfl, rfl⟩
  | transfer | block => cases hn

theorem received_upTo_le (c : Chain) (k : Nat) (a : EvmAddress) :
    (c.upTo k).received a ≤ c.received a := by
  induction c with
  | nil => exact Nat.le_refl _
  | cons e c ih =>
    rw [upTo]
    split_ifs
    · exact Nat.le_refl _
    · rw [received_cons]
      omega

theorem balance_le_received (c : Chain) (a : EvmAddress) : c.balance a ≤ c.received a := by
  unfold balance
  omega

/-! ## Outflow by nonce -/

theorem outflow_eq_zero (h : ∀ op, .operation op true ∈ c → op.sender = a → p op.nonce = true →
    op.transferred = 0) : c.outflow a p = 0 := by
  refine List.sum_eq_zero ?_
  intro x hx
  obtain ⟨e, he, rfl⟩ := List.mem_map.1 hx
  cases e with
  | operation op success =>
    simp only [ChainEvent.outflow]
    split_ifs with hp
    · obtain ⟨rfl, hs, hn⟩ := hp
      exact h op he hs hn
    · rfl
  | transfer | block => rfl

/-- Nothing leaves an account at a nonce that is not used. -/
theorem outflow_unused (h : (a, n) ∉ c.nonces) : c.outflow a (fun i => decide (i = n)) = 0 := by
  refine outflow_eq_zero fun op hop hs hn => absurd (mem_nonces hop) ?_
  rw [hs, of_decide_eq_true hn]
  exact h

theorem outflow_lt_succ (c : Chain) (a : EvmAddress) (n : Nat) :
    c.outflow a (fun i => decide (i < n + 1)) =
      c.outflow a (fun i => decide (i < n)) + c.outflow a (fun i => decide (i = n)) := by
  unfold outflow
  rw [← List.sum_map_add]
  refine congrArg List.sum (List.map_congr_left fun e _ => ?_)
  cases e with
  | operation op success =>
    simp only [ChainEvent.outflow, decide_eq_true_eq, ← and_assoc]
    by_cases hs : success = true ∧ op.sender = a
    · simp only [hs, true_and]
      split_ifs <;> omega
    · simp only [hs, false_and, if_false]
  | transfer | block => rfl

/-- What leaves an account at the nonce of an executed operation. -/
theorem outflow_at (hunique : c.nonces.Nodup) (h : .operation op success ∈ c) :
    c.outflow op.sender (fun i => decide (i = op.nonce)) =
      if success = true then op.transferred else 0 := by
  induction c with
  | nil => cases h
  | cons e c ih =>
    rw [outflow_cons]
    rcases List.mem_cons.1 h with rfl | hmem
    · have hfresh := (List.nodup_cons.1 hunique).1
      rw [outflow_unused hfresh, Nat.add_zero]
      simp [ChainEvent.outflow]
    · cases e with
      | operation op' success' =>
        -- another operation at this nonce is excluded
        obtain ⟨hfresh, hunique⟩ := List.nodup_cons.1 hunique
        have hne : ¬ (success' = true ∧ op'.sender = op.sender ∧
            decide (op'.nonce = op.nonce) = true) := by
          rintro ⟨-, hs, hn⟩
          rw [hs, of_decide_eq_true hn] at hfresh
          exact hfresh (mem_nonces hmem)
        rw [ChainEvent.outflow, if_neg hne, Nat.zero_add]
        exact ih hunique hmem
      | transfer | block => exact (Nat.zero_add _).trans (ih hunique hmem)

end Chain

/-! ## The world -/

structure World where
  db : Db
  chain : Chain

inductive WorldItem
  | chain (e : ChainEvent)
  | module (item : Item)

def World.start : World := ⟨Db.empty, []⟩

/-- What the chain may do next: it executes enqueued operations only, and each nonce once. -/
def World.admits (w : World) : ChainEvent → Bool
  | .operation op _ =>
    decide (op ∈ (enqueued w.db.history).map (·.2)) &&
      decide ((op.sender, op.nonce) ∉ w.chain.nonces)
  | _ => true

/-- Whether a deposit proof shows the balance of its account at its block. -/
def Usdt.provesBalance (u : Usdt) (c : Chain) : Item → Bool
  | .input (.depositProofV0 pk proof _) =>
    decide (proof.blockNumber < c.height) &&
      decide (((u.provenBalance pk proof).raw : Int) =
        (c.upTo proof.blockNumber).balance (u.depositAccount pk))
  | _ => true

/-- Whether a confirmation reports what the chain has executed. -/
def Chain.reports (c : Chain) : Event → Bool
  | .userOpConfirmed op _ success _ => decide (.operation op success ∈ c)
  | _ => true

def Usdt.truthful (u : Usdt) (c : Chain) (item : Item) (db' : Db) : Bool :=
  u.provesBalance c item && db'.history.all c.reports

/-- The chain moves, or the module accepts an item that is truthful about the chain. -/
def Usdt.worldStep (u : Usdt) (w : World) : WorldItem → Option (Answer × World)
  | .chain e => if w.admits e then some (.recorded, { w with chain := e :: w.chain }) else none
  | .module item =>
    match u.step w.db item with
    | none => none
    | some (answer, db') =>
      if u.truthful w.chain item db' then some (answer, { w with db := db' }) else none

/-- Items of the module in a trace of the world. -/
def moduleTrace (tr : List (WorldItem × Answer)) : List (Item × Answer) :=
  tr.filterMap fun t =>
    match t.1 with
    | .chain _ => none
    | .module item => some (item, t.2)

variable {u : Usdt} {w w' : World}

theorem Usdt.worldStep_chain {e : ChainEvent} {answer : Answer}
    (h : u.worldStep w (.chain e) = some (answer, w')) :
    w.admits e = true ∧ w' = { w with chain := e :: w.chain } := by
  simp only [worldStep] at h
  split_ifs at h with ha
  obtain ⟨-, rfl⟩ := Prod.mk.inj (Option.some.inj h)
  exact ⟨ha, rfl⟩

theorem Usdt.worldStep_module {item : Item} {answer : Answer}
    (h : u.worldStep w (.module item) = some (answer, w')) :
    ∃ db', Accepts u w.db item answer db' ∧ u.truthful w.chain item db' = true ∧
      w' = { w with db := db' } := by
  simp only [worldStep] at h
  split at h
  · cases h
  · rename_i answer' db' hstep
    split_ifs at h with htrue
    obtain ⟨rfl, rfl⟩ := Prod.mk.inj (Option.some.inj h)
    exact ⟨db', hstep, htrue, rfl⟩

/-- **The module's part of a run of the world is a run of the module.** -/
theorem run_module {tr : List (WorldItem × Answer)} (run : Run (Steps u.worldStep) World.start tr w) :
    Run (Accepts u) Db.empty (moduleTrace tr) w.db := by
  refine run.historyInvariant (P := fun tr w => Run (Accepts u) Db.empty (moduleTrace tr) w.db)
    .start ?_
  intro tr w item answer w' hrun h
  cases item with
  | chain e =>
    obtain ⟨-, rfl⟩ := Usdt.worldStep_chain h
    exact hrun
  | module item =>
    obtain ⟨db', haccepts, -, rfl⟩ := Usdt.worldStep_module h
    exact hrun.next haccepts

end Experimint.FedimintUsdt
