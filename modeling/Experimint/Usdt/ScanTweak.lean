import Mathlib.Algebra.Module.Basic
import Mathlib.Algebra.Module.NatInt
import Mathlib.Data.BitVec
import Experimint.Lib.FirstHit
import Experimint.Usdt.Bytes
import Experimint.Usdt.Server

/-!
# Grinding a claim key

Guardians find deposits by a tag in the account's address, so a client adds the generator to its
claim key until the address carries the tag.  Inside a chunk the point is stepped; at the start of a
chunk it is computed from the base key again.

* `Curve` — keys are the points other than the identity; a tweak that would reach it fails.
* `findScanTweak_eq`, `findInTurn_eq` — a chunk, and chunks in turn, search for the first hit.
* `groundFrom_eq` — so does the client, whose secret key follows the point.
* `groundFrom_ok` — its result is a tweak of the base key, whatever the curve.
* `grind_canonical` — the key does not depend on the chunks.
-/

set_option autoImplicit false

namespace Experimint.FedimintUsdt

/-! ## Keys and tweaks -/

/-- The nonzero elements: public keys among the points, secret keys among the scalars. -/
abbrev Key (G : Type) [Zero G] : Type := { x : G // x ≠ 0 }

/-- The group the keys live in: scalars `S`, points `P`, and the compressed form of a point. -/
structure Curve (S P : Type) [Ring S] [AddCommGroup P] [Module S P] where
  generator : P
  smul_injective : Function.Injective fun s : S => s • generator
  compressed : Key P → PublicKey

def scanTweakScalar (S : Type) [Ring S] (tweak : Nat) : S := tweak

namespace Curve

variable {S P : Type} [Ring S] [AddCommGroup P] [Module S P] [DecidableEq P]
variable (c : Curve S P)

/-- `pk + tweak * G`; fails at the identity. -/
def addExpTweak (pk : Key P) (tweak : S) : Option (Key P) :=
  if h : pk.1 + tweak • c.generator = 0 then none else some ⟨_, h⟩

/-- `sk + tweak`; fails at zero. -/
def addTweak [DecidableEq S] (sk : Key S) (tweak : S) : Option (Key S) :=
  if h : sk.1 + tweak = 0 then none else some ⟨_, h⟩

def publicKey (sk : Key S) : Key P :=
  ⟨sk.1 • c.generator, fun h => sk.2 (c.smul_injective (h.trans (zero_smul S _).symm))⟩

end Curve

/-! ## The search -/

def SCAN_PREDICATE_DOMAIN : Bytes := ascii "fedimint-usdt-scan-v0"

def DEPOSIT_SCAN_TAG_BITS : Nat := 16

def MAX_SCAN_GRIND_ITERATIONS : Nat := 4194304

def GRIND_FAILED : String :=
  "no scan tweak within MAX_SCAN_GRIND_ITERATIONS; statistically unreachable"

def hasLeadingZeroBits (bytes : Bytes) (bits : Nat) : Bool :=
  let full := bits / 8
  let rem := bits % 8
  if bytes.length < full + (if rem > 0 then 1 else 0) then false
  else if (bytes.take full).any (· ≠ 0) then false
  else rem == 0 || (bytes.getD full 0).toNat >>> (8 - rem) == 0

def Evm.isPotentialDeposit (e : Evm) (groupPublicKey : PublicKey) (account : EvmAddress) : Bool :=
  hasLeadingZeroBits
    (wordBytes (e.keccak256 (SCAN_PREDICATE_DOMAIN ++ e.serialize groupPublicKey ++
      toBeBytes 20 account.val)).val)
    DEPOSIT_SCAN_TAG_BITS

/-- The part of the client's configuration that deposit addresses depend on. -/
structure UsdtClientConfig where
  groupPublicKey : PublicKey
  accountFactory : EvmAddress
  simpleAccountImpl : EvmAddress

/-- The client's view: the chain's functions, the curve and the configuration. -/
structure Grinder (S P : Type) [Ring S] [AddCommGroup P] [Module S P] where
  evm : Evm
  curve : Curve S P
  cfg : UsdtClientConfig

def SCAN_GRIND_CHUNK : Nat := 256

namespace Grinder

variable {S P : Type} [Ring S] [AddCommGroup P] [Module S P] [DecidableEq P]
variable (g : Grinder S P)

/-- Deposit account of a key. -/
def account (initCodeHash : Hash) (pk : Key P) : EvmAddress :=
  g.evm.create2 g.cfg.accountFactory (g.evm.depositSalt (g.curve.compressed pk)) initCodeHash

/-- The loop over `count` tweaks from `tweak` on, at the point `pk`. -/
def scanLoop (initCodeHash : Hash) :
    (count tweak : Nat) → Key P → Except String (Option (Nat × Key P × EvmAddress))
  | 0, _, _ => .ok none
  | count + 1, tweak, pk =>
    let account := g.account initCodeHash pk
    if g.evm.isPotentialDeposit g.cfg.groupPublicKey account then .ok (some (tweak, pk, account))
    else
      -- The point is stepped after the last tested tweak, too.
      match g.curve.addExpTweak pk 1 with
      | none => .error "tweak step"
      | some pk => scanLoop initCodeHash count (tweak + 1) pk

def findScanTweak (basePk : Key P) (start stop : Nat) :
    Except String (Option (Nat × Key P × EvmAddress)) :=
  let stop := min stop MAX_SCAN_GRIND_ITERATIONS
  if start ≥ stop then .ok none
  else
    let owner := g.evm.evmAddress g.cfg.groupPublicKey
    let initCodeHash := g.evm.depositInitCodeHash g.cfg.simpleAccountImpl owner
    let pk := if start == 0 then some basePk
      else g.curve.addExpTweak basePk (scanTweakScalar S start)
    match pk with
    | none => .error "tweak offset"
    | some pk => g.scanLoop initCodeHash (stop - start) start pk

/-- Calls on consecutive chunks that end at the given cuts, until one finds something. -/
def findInTurn (basePk : Key P) :
    (start : Nat) → (cuts : List Nat) → Except String (Option (Nat × Key P × EvmAddress))
  | _, [] => .ok none
  | start, cut :: cuts =>
    match g.findScanTweak basePk start cut with
    | .ok none => findInTurn basePk cut cuts
    | found => found

/-- Secret key of a tweak, with the tweak and the account. -/
def claimKey [DecidableEq S] (base : Key S) (tweak : Nat) (account : EvmAddress) :
    Except String (Nat × Key S × EvmAddress) :=
  let sk := if tweak == 0 then some base else Curve.addTweak base (scanTweakScalar S tweak)
  match sk with
  | none => .error "claim-key tweak"
  | some sk => .ok (tweak, sk, account)

/-- The client's loop over chunks.  A key pair is its secret key. -/
def groundFrom [DecidableEq S] (base : Key S) (start : Nat) :
    Except String (Nat × Key S × EvmAddress) :=
  if start < MAX_SCAN_GRIND_ITERATIONS then
    let stop := min (start + SCAN_GRIND_CHUNK) (2 ^ 64 - 1)
    match g.findScanTweak (g.curve.publicKey base) start stop with
    | .error message => .error message
    | .ok (some (tweak, _, account)) => claimKey base tweak account
    | .ok none => groundFrom base stop
  else .error GRIND_FAILED
termination_by MAX_SCAN_GRIND_ITERATIONS - start
decreasing_by
  simp only [MAX_SCAN_GRIND_ITERATIONS, SCAN_GRIND_CHUNK] at *
  omega

def groundClaimKeypairStatic [DecidableEq S] (base : Key S) :
    Except String (Nat × Key S × EvmAddress) :=
  g.groundFrom base 0

end Grinder

/-! ## Keys of a base key -/

namespace Curve

variable {S P : Type} [Ring S] [AddCommGroup P] [Module S P]
variable {c : Curve S P} {base : Key P} {t : Nat}

theorem publicKey_inj {sk sk' : Key S} (h : c.publicKey sk = c.publicKey sk') : sk = sk' :=
  Subtype.ext (c.smul_injective (congrArg Subtype.val h))

/-- No tweak up to `n` takes the key to the identity. -/
def Clear (c : Curve S P) (base : Key P) (n : Nat) : Prop :=
  ∀ t ≤ n, base.1 + (t : S) • c.generator ≠ 0

variable [DecidableEq P]

/-- `base + t * G`, or `base` where that is the identity. -/
def tweaked (c : Curve S P) (base : Key P) (t : Nat) : Key P :=
  (c.addExpTweak base (scanTweakScalar S t)).getD base

theorem addExpTweak_eq_some {pk : Key P} {tweak : S} (h : pk.1 + tweak • c.generator ≠ 0) :
    c.addExpTweak pk tweak = some ⟨_, h⟩ :=
  dif_neg h

theorem addExpTweak_base (h : base.1 + (t : S) • c.generator ≠ 0) :
    c.addExpTweak base (scanTweakScalar S t) = some (c.tweaked base t) := by
  unfold tweaked scanTweakScalar
  rw [addExpTweak_eq_some h]
  rfl

theorem val_tweaked (h : base.1 + (t : S) • c.generator ≠ 0) :
    (c.tweaked base t).1 = base.1 + (t : S) • c.generator := by
  unfold tweaked scanTweakScalar
  rw [addExpTweak_eq_some h]
  rfl

theorem tweaked_zero : c.tweaked base 0 = base := by
  have hval : base.1 + ((0 : Nat) : S) • c.generator = base.1 := by
    rw [Nat.cast_zero, zero_smul, add_zero]
  exact Subtype.ext ((val_tweaked (by rw [hval]; exact base.2)).trans hval)

/-- Stepping the point gives the key of the next tweak. -/
theorem addExpTweak_tweaked (h : base.1 + (t : S) • c.generator ≠ 0)
    (hnext : base.1 + ((t + 1 : Nat) : S) • c.generator ≠ 0) :
    c.addExpTweak (c.tweaked base t) 1 = some (c.tweaked base (t + 1)) := by
  have hval : (c.tweaked base t).1 + (1 : S) • c.generator =
      base.1 + ((t + 1 : Nat) : S) • c.generator := by
    rw [val_tweaked h, Nat.cast_succ, add_smul, add_assoc]
  rw [addExpTweak_eq_some (by rw [hval]; exact hnext)]
  exact congrArg some (Subtype.ext (hval.trans (val_tweaked hnext).symm))

/-- The secret key follows the point. -/
theorem addTweak_base [DecidableEq S] {base : Key S}
    (h : (c.publicKey base).1 + (t : S) • c.generator ≠ 0) :
    ∃ sk, addTweak base (scanTweakScalar S t) = some sk ∧
      c.publicKey sk = c.tweaked (c.publicKey base) t := by
  have hsum : (base.1 + (t : S)) • c.generator = (c.publicKey base).1 + (t : S) • c.generator :=
    add_smul _ _ _
  have hne : base.1 + (t : S) ≠ 0 := by
    intro hzero
    rw [hzero, zero_smul] at hsum
    exact h hsum.symm
  exact ⟨⟨_, hne⟩, dif_neg hne, Subtype.ext (hsum.trans (val_tweaked h).symm)⟩

end Curve

/-! ## The search finds the first tag -/

namespace Grinder

variable {S P : Type} [Ring S] [AddCommGroup P] [Module S P] [DecidableEq P]
variable {g : Grinder S P} {basePk : Key P} {start stop : Nat}

def deriveDepositAccount (g : Grinder S P) (claimPk : Key P) : EvmAddress :=
  g.evm.create2SimpleAccount g.cfg.accountFactory g.cfg.simpleAccountImpl
    (g.evm.evmAddress g.cfg.groupPublicKey) (g.evm.depositSalt (g.curve.compressed claimPk))

/-- The deposit account of the key carries the tag. -/
def tagged (g : Grinder S P) (claimPk : Key P) : Bool :=
  g.evm.isPotentialDeposit g.cfg.groupPublicKey (g.deriveDepositAccount claimPk)

/-- What the search reports at a tweak. -/
def found (g : Grinder S P) (basePk : Key P) (t : Nat) : Nat × Key P × EvmAddress :=
  (t, g.curve.tweaked basePk t, g.deriveDepositAccount (g.curve.tweaked basePk t))

/-- First tweak of a range with the tag. -/
def firstTagged (g : Grinder S P) (basePk : Key P) (start stop : Nat) : Option Nat :=
  firstHit (fun t => g.tagged (g.curve.tweaked basePk t)) start stop

theorem firstTagged_zero : g.firstTagged basePk start (start + 0) = none :=
  firstHit_empty (Nat.add_zero start).le

theorem firstTagged_succ {count : Nat} :
    g.firstTagged basePk start (start + (count + 1)) =
      if g.tagged (g.curve.tweaked basePk start) then some start
      else g.firstTagged basePk (start + 1) (start + 1 + count) :=
  firstHit_add_succ

theorem scanLoop_eq {count tweak : Nat} (hclear : g.curve.Clear basePk (tweak + count)) :
    g.scanLoop (g.evm.depositInitCodeHash g.cfg.simpleAccountImpl
        (g.evm.evmAddress g.cfg.groupPublicKey)) count tweak (g.curve.tweaked basePk tweak) =
      .ok ((g.firstTagged basePk tweak (tweak + count)).map (g.found basePk)) := by
  induction count generalizing tweak with
  | zero =>
    rw [firstTagged_zero]
    rfl
  | succ count ih =>
    unfold scanLoop
    rw [firstTagged_succ]
    by_cases htag : g.tagged (g.curve.tweaked basePk tweak)
    · rw [if_pos htag]
      exact if_pos htag
    · rw [if_neg htag, Curve.addExpTweak_tweaked (hclear _ (by omega)) (hclear _ (by omega))]
      refine (if_neg htag).trans (ih ?_)
      rw [Nat.add_right_comm]
      exact hclear

/-- **One chunk.** -/
theorem findScanTweak_eq (hclear : g.curve.Clear basePk MAX_SCAN_GRIND_ITERATIONS) :
    g.findScanTweak basePk start stop =
      .ok ((g.firstTagged basePk start (min stop MAX_SCAN_GRIND_ITERATIONS)).map
        (g.found basePk)) := by
  unfold findScanTweak
  dsimp only
  by_cases hempty : start ≥ min stop MAX_SCAN_GRIND_ITERATIONS
  · unfold firstTagged
    rw [if_pos hempty, firstHit_empty hempty]
    rfl
  · have hbound := Nat.min_le_right stop MAX_SCAN_GRIND_ITERATIONS
    have hpk : (if start == 0 then some basePk
        else g.curve.addExpTweak basePk (scanTweakScalar S start)) =
          some (g.curve.tweaked basePk start) := by
      by_cases hstart : start = 0
      · rw [if_pos (beq_iff_eq.2 hstart), hstart, Curve.tweaked_zero]
      · rw [if_neg (by simpa using hstart), Curve.addExpTweak_base (hclear _ (by omega))]
    have hlen : start + (min stop MAX_SCAN_GRIND_ITERATIONS - start) =
        min stop MAX_SCAN_GRIND_ITERATIONS := by omega
    rw [if_neg hempty, hpk]
    refine (scanLoop_eq fun t ht => hclear t (by omega)).trans ?_
    rw [hlen]

/-- A search up to a cut and one from there on make a search of the whole range, also where the
limit falls before the cut. -/
theorem firstTagged_split {cut : Nat} (hlo : start ≤ cut) (hhi : cut ≤ stop) (n : Nat) :
    g.firstTagged basePk start (min stop n) =
      (g.firstTagged basePk start (min cut n)).or (g.firstTagged basePk cut (min stop n)) := by
  unfold firstTagged
  rcases Nat.le_total cut n with hle | hge
  · rw [Nat.min_eq_left hle, firstHit_split hlo (by omega)]
  · rw [Nat.min_eq_right hge, Nat.min_eq_right (hge.trans hhi), firstHit_empty hge, Option.or_none]

/-- **Chunks in turn.** -/
theorem findInTurn_eq {cuts : List Nat} (hclear : g.curve.Clear basePk MAX_SCAN_GRIND_ITERATIONS)
    (hcuts : (start :: (cuts ++ [stop])).Pairwise (· ≤ ·)) :
    g.findInTurn basePk start (cuts ++ [stop]) = g.findScanTweak basePk start stop := by
  induction cuts generalizing start with
  | nil =>
    rw [List.nil_append, findInTurn, findScanTweak_eq hclear]
    cases g.firstTagged basePk start (min stop MAX_SCAN_GRIND_ITERATIONS) <;> rfl
  | cons cut cuts ih =>
    obtain ⟨hfrom, hrest⟩ := List.pairwise_cons.1 hcuts
    have hlo : start ≤ cut := hfrom cut (List.mem_cons_self ..)
    have hhi : cut ≤ stop := (List.pairwise_cons.1 hrest).1 stop (by simp)
    rw [List.cons_append, findInTurn, ih hrest, findScanTweak_eq hclear, findScanTweak_eq hclear,
      findScanTweak_eq hclear, firstTagged_split hlo hhi]
    cases g.firstTagged basePk start (min cut MAX_SCAN_GRIND_ITERATIONS) <;> rfl

/-! ## The client's key -/

variable [DecidableEq S] {base : Key S}

/-- The result of the client, given the first tag. -/
def groundKey (g : Grinder S P) (base : Key S) (first : Option Nat) :
    Except String (Nat × Key S × EvmAddress) :=
  first.elim (.error GRIND_FAILED) fun t =>
    claimKey base t (g.deriveDepositAccount (g.curve.tweaked (g.curve.publicKey base) t))

theorem groundFrom_eq
    (hclear : g.curve.Clear (g.curve.publicKey base) MAX_SCAN_GRIND_ITERATIONS) :
    g.groundFrom base start =
      g.groundKey base
        (g.firstTagged (g.curve.publicKey base) start MAX_SCAN_GRIND_ITERATIONS) := by
  -- Induction on the chunks that are left.
  induction hleft : MAX_SCAN_GRIND_ITERATIONS - start using Nat.strongRecOn generalizing start with
  | ind left ih =>
    rw [groundFrom]
    by_cases hstart : start < MAX_SCAN_GRIND_ITERATIONS
    · have hstop : min (start + SCAN_GRIND_CHUNK) (2 ^ 64 - 1) = start + SCAN_GRIND_CHUNK := by
        simp only [MAX_SCAN_GRIND_ITERATIONS, SCAN_GRIND_CHUNK] at *
        omega
      have hchunk : start < start + SCAN_GRIND_CHUNK := by simp only [SCAN_GRIND_CHUNK]; omega
      have hsplit : g.firstTagged (g.curve.publicKey base) start
          (min (start + SCAN_GRIND_CHUNK + MAX_SCAN_GRIND_ITERATIONS) MAX_SCAN_GRIND_ITERATIONS) =
            _ := firstTagged_split hchunk.le (Nat.le_add_right _ _) _
      rw [Nat.min_eq_right (Nat.le_add_left _ _)] at hsplit
      rw [if_pos hstart, hstop, hsplit]
      dsimp only
      rw [findScanTweak_eq hclear]
      cases g.firstTagged (g.curve.publicKey base) start
          (min (start + SCAN_GRIND_CHUNK) MAX_SCAN_GRIND_ITERATIONS) with
      | some t => rfl
      | none =>
        have hrest := ih (MAX_SCAN_GRIND_ITERATIONS - (start + SCAN_GRIND_CHUNK)) (by omega) rfl
        simpa only [Option.map_none, Option.none_or] using hrest
    · unfold firstTagged
      rw [if_neg hstart, firstHit_empty (Nat.le_of_not_lt hstart)]
      rfl

/-! ## The result is a tweak -/

omit [DecidableEq S] in
theorem scanLoop_lt {initCodeHash : Hash} {count tweak t : Nat} {pk pk' : Key P}
    {account : EvmAddress}
    (h : g.scanLoop initCodeHash count tweak pk = .ok (some (t, pk', account))) :
    t < tweak + count := by
  induction count generalizing tweak pk with
  | zero => cases h
  | succ count ih =>
    unfold scanLoop at h
    dsimp only at h
    split at h
    · cases h
      omega
    · split at h
      · cases h
      · have := ih h
        omega

omit [DecidableEq S] in
theorem findScanTweak_lt {t : Nat} {pk : Key P} {account : EvmAddress}
    (h : g.findScanTweak basePk start stop = .ok (some (t, pk, account))) :
    t < MAX_SCAN_GRIND_ITERATIONS := by
  unfold findScanTweak at h
  dsimp only at h
  split at h
  · cases h
  · split at h
    · cases h
    · have := scanLoop_lt h
      omega

/-- What the client returns is a tweak of its base key below the limit. -/
theorem groundFrom_ok {t : Nat} {sk : Key S} {account : EvmAddress}
    (h : g.groundFrom base start = .ok (t, sk, account)) :
    t < MAX_SCAN_GRIND_ITERATIONS ∧ sk.1 = base.1 + (t : S) := by
  induction hleft : MAX_SCAN_GRIND_ITERATIONS - start using Nat.strongRecOn generalizing start with
  | ind left ih =>
    rw [groundFrom] at h
    dsimp only at h
    split at h
    · rename_i hstart
      split at h
      · cases h
      · rename_i t' pk account' hfind
        have hlt := findScanTweak_lt hfind
        unfold claimKey at h
        dsimp only at h
        split at h
        · cases h
        · rename_i sk' hsk
          cases h
          refine ⟨hlt, ?_⟩
          split at hsk
          · rename_i hzero
            obtain rfl : t = 0 := by simpa using hzero
            cases hsk
            rw [Nat.cast_zero, add_zero]
          · unfold Curve.addTweak at hsk
            split at hsk
            · cases hsk
            · cases hsk
              rfl
      · refine ih _ ?_ h rfl
        simp only [MAX_SCAN_GRIND_ITERATIONS, SCAN_GRIND_CHUNK] at *
        omega
    · cases h

/-! ## The key is canonical -/

/-- The result of the smallest tweak of a range whose key has a tagged deposit account. -/
structure Canonical (g : Grinder S P) (basePk : Key P) (start stop t : Nat) (pk : Key P)
    (account : EvmAddress) : Prop where
  in_range : start ≤ t ∧ t < stop
  key_eq : pk.1 = basePk.1 + (t : S) • g.curve.generator
  account_eq : account = g.deriveDepositAccount pk
  tagged : g.evm.isPotentialDeposit g.cfg.groupPublicKey account = true
  first : ∀ s q, start ≤ s → s < t → q.1 = basePk.1 + (s : S) • g.curve.generator →
    g.evm.isPotentialDeposit g.cfg.groupPublicKey (g.deriveDepositAccount q) = false

/-- Some tweak of a range has a tagged deposit account. -/
def HasTag (g : Grinder S P) (basePk : Key P) (start stop : Nat) : Prop :=
  ∃ t pk, start ≤ t ∧ t < stop ∧ pk.1 = basePk.1 + (t : S) • g.curve.generator ∧
    g.evm.isPotentialDeposit g.cfg.groupPublicKey (g.deriveDepositAccount pk) = true

omit [DecidableEq S] in
theorem eq_tweaked {pk : Key P} {t : Nat} (h : pk.1 = basePk.1 + (t : S) • g.curve.generator) :
    pk = g.curve.tweaked basePk t :=
  Subtype.ext (h.trans (Curve.val_tweaked (h ▸ pk.2)).symm)

omit [DecidableEq S] in
theorem canonical_iff {t : Nat} {pk : Key P} {account : EvmAddress}
    (hclear : g.curve.Clear basePk stop) :
    (g.firstTagged basePk start stop).map (g.found basePk) = some (t, pk, account) ↔
      g.Canonical basePk start stop t pk account := by
  rw [Option.map_eq_some_iff]
  constructor
  · rintro ⟨t, hfirst, hfound⟩
    cases hfound
    obtain ⟨hlo, hhi, htag, hbefore⟩ := firstHit_eq_some_iff.1 hfirst
    refine ⟨⟨hlo, hhi⟩, Curve.val_tweaked (hclear t hhi.le), rfl, htag, ?_⟩
    intro s q hs hst hq
    rw [eq_tweaked hq]
    exact hbefore s hs hst
  · rintro ⟨⟨hlo, hhi⟩, hpk, rfl, htag, hbefore⟩
    obtain rfl := eq_tweaked hpk
    refine ⟨t, firstHit_eq_some_iff.2 ⟨hlo, hhi, htag, ?_⟩, rfl⟩
    intro s hs hst
    exact hbefore s _ hs hst (Curve.val_tweaked (hclear s (hst.trans hhi).le))

omit [DecidableEq S] in
theorem firstTagged_eq_none_iff (hclear : g.curve.Clear basePk stop) :
    g.firstTagged basePk start stop = none ↔ ¬ g.HasTag basePk start stop := by
  unfold firstTagged
  rw [firstHit_eq_none_iff]
  constructor
  · rintro hnone ⟨t, pk, hlo, hhi, hpk, htag⟩
    rw [eq_tweaked hpk] at htag
    exact Bool.eq_false_iff.1 (hnone t hlo hhi) htag
  · intro hno t hlo hhi
    refine Bool.eq_false_iff.2 fun htag => hno ⟨t, _, hlo, hhi, ?_, htag⟩
    exact Curve.val_tweaked (hclear t hhi.le)

/-- The secret key of a tweak is the one of its point. -/
theorem claimKey_eq {t : Nat}
    (h : (g.curve.publicKey base).1 + (t : S) • g.curve.generator ≠ 0) :
    ∃ sk, g.curve.publicKey sk = g.curve.tweaked (g.curve.publicKey base) t ∧
      ∀ account, claimKey base t account = .ok (t, sk, account) := by
  obtain ⟨sk, hsk, hpub⟩ := Curve.addTweak_base h
  have hkey : (if t == 0 then some base else Curve.addTweak base (scanTweakScalar S t)) =
      some sk := by
    by_cases ht : t = 0
    · subst ht
      rw [Curve.tweaked_zero] at hpub
      rw [Curve.publicKey_inj hpub]
      rfl
    · rw [if_neg (by simpa using ht), hsk]
  refine ⟨sk, hpub, fun account => ?_⟩
  unfold claimKey
  dsimp only
  rw [hkey]

/-- The client returns the secret key of the first tagged point. -/
theorem groundKey_eq_ok_iff {t : Nat} {sk : Key S} {account : EvmAddress}
    (hclear : g.curve.Clear (g.curve.publicKey base) MAX_SCAN_GRIND_ITERATIONS) :
    g.groundKey base (g.firstTagged (g.curve.publicKey base) 0 MAX_SCAN_GRIND_ITERATIONS) =
        .ok (t, sk, account) ↔
      g.Canonical (g.curve.publicKey base) 0 MAX_SCAN_GRIND_ITERATIONS t (g.curve.publicKey sk)
        account := by
  rw [← canonical_iff hclear]
  cases hfirst : g.firstTagged (g.curve.publicKey base) 0 MAX_SCAN_GRIND_ITERATIONS with
  | none =>
    constructor
    · intro h
      cases h
    · intro h
      cases h
  | some s =>
    have hs := (firstHit_eq_some_iff.1 hfirst).2.1
    obtain ⟨sk₀, hpub, hok⟩ := claimKey_eq (hclear s hs.le)
    rw [groundKey, Option.elim_some, hok, Option.map_some, found, ← hpub]
    constructor
    · intro h
      cases h
      rfl
    · intro h
      obtain ⟨rfl, hkey, rfl⟩ : s = t ∧ g.curve.publicKey sk₀ = g.curve.publicKey sk ∧
          g.deriveDepositAccount (g.curve.publicKey sk₀) = account := by simpa using h
      rw [Curve.publicKey_inj hkey]

/-- The client fails when there is no tag to find. -/
theorem groundKey_eq_error_iff
    (hclear : g.curve.Clear (g.curve.publicKey base) MAX_SCAN_GRIND_ITERATIONS) :
    (∃ message, g.groundKey base
        (g.firstTagged (g.curve.publicKey base) 0 MAX_SCAN_GRIND_ITERATIONS) = .error message) ↔
      ¬ g.HasTag (g.curve.publicKey base) 0 MAX_SCAN_GRIND_ITERATIONS := by
  rw [← firstTagged_eq_none_iff hclear]
  cases hfirst : g.firstTagged (g.curve.publicKey base) 0 MAX_SCAN_GRIND_ITERATIONS with
  | none => exact ⟨fun _ => rfl, fun _ => ⟨_, rfl⟩⟩
  | some s =>
    have hs := (firstHit_eq_some_iff.1 hfirst).2.1
    obtain ⟨sk, -, hok⟩ := claimKey_eq (hclear s hs.le)
    rw [groundKey, Option.elim_some, hok]
    constructor
    · rintro ⟨message, herr⟩
      cases herr
    · intro h
      cases h

/-- **The claim key does not depend on the chunks.**  For a base key no tweak of which up to the
limit is the identity: chunks in turn give what one call gives, which is the smallest tagged tweak
below the limit; the client returns it with the secret key of its point, and fails when there is
none. -/
theorem grind_canonical (g : Grinder S P) (basePk : Key P)
    (hclear : g.curve.Clear basePk MAX_SCAN_GRIND_ITERATIONS) :
    (∀ start cuts stop, (start :: (cuts ++ [stop])).Pairwise (· ≤ ·) →
      g.findInTurn basePk start (cuts ++ [stop]) = g.findScanTweak basePk start stop) ∧
    (∀ start stop t pk account,
      g.findScanTweak basePk start stop = .ok (some (t, pk, account)) ↔
        g.Canonical basePk start (min stop MAX_SCAN_GRIND_ITERATIONS) t pk account) ∧
    (∀ start stop, g.findScanTweak basePk start stop = .ok none ↔
      ¬ g.HasTag basePk start (min stop MAX_SCAN_GRIND_ITERATIONS)) ∧
    ∀ base, g.curve.publicKey base = basePk →
      (∀ t sk account, g.groundClaimKeypairStatic base = .ok (t, sk, account) ↔
        g.Canonical basePk 0 MAX_SCAN_GRIND_ITERATIONS t (g.curve.publicKey sk) account) ∧
      ((∃ message, g.groundClaimKeypairStatic base = .error message) ↔
        ¬ g.HasTag basePk 0 MAX_SCAN_GRIND_ITERATIONS) := by
  have hbelow : ∀ stop, g.curve.Clear basePk (min stop MAX_SCAN_GRIND_ITERATIONS) :=
    fun stop t ht => hclear t (ht.trans (Nat.min_le_right _ _))
  refine ⟨fun _ _ _ => findInTurn_eq hclear, ?_, ?_, ?_⟩
  · intro start stop t pk account
    rw [findScanTweak_eq hclear, Except.ok.injEq]
    exact canonical_iff (hbelow stop)
  · intro start stop
    rw [findScanTweak_eq hclear, Except.ok.injEq, Option.map_eq_none_iff]
    exact firstTagged_eq_none_iff (hbelow stop)
  · rintro base rfl
    unfold groundClaimKeypairStatic
    rw [groundFrom_eq hclear]
    exact ⟨fun _ _ _ => groundKey_eq_ok_iff hclear, groundKey_eq_error_iff hclear⟩

end Grinder

/-! ## A sample -/

/-- A digest is the last 16 bytes hashed, and has leading zeros when they end in 3. -/
def taggingKeccak (bytes : Bytes) : Hash :=
  Fin.ofNat (2 ^ 256) (ofBeBytes (bytes.drop (bytes.length - 16)) +
    if bytes.getLast? = some 3 then 0 else 2 ^ 255)

/-- A cyclic group larger than the range of tweaks. -/
abbrev SampleGroup : Type := BitVec 24

def sampleGrinder : Grinder SampleGroup SampleGroup where
  evm := { sampleEvm with keccak256 := taggingKeccak }
  curve := ⟨1, fun a b h => by simpa using h, fun pk => ⟨false, Fin.ofNat _ pk.1.toNat⟩⟩
  cfg := ⟨⟨false, 7⟩, 3, 4⟩

theorem sampleGroup_natCast_ne_zero {t : Nat} (hpos : 0 < t) (hlt : t < 2 ^ 24) :
    (t : SampleGroup) ≠ 0 := by
  intro hzero
  have hmod : t % 2 ^ 24 = 0 := congrArg BitVec.toNat hzero
  omega

def sampleBase : Key SampleGroup := ⟨1, by decide⟩

theorem sampleGrinder_clear :
    sampleGrinder.curve.Clear (sampleGrinder.curve.publicKey sampleBase)
      MAX_SCAN_GRIND_ITERATIONS := by
  intro t ht
  have hval : (sampleGrinder.curve.publicKey sampleBase).1 +
      (t : SampleGroup) • sampleGrinder.curve.generator = ((1 + t : Nat) : SampleGroup) := by
    simp only [sampleGrinder, Curve.publicKey, sampleBase, smul_eq_mul, mul_one, Nat.cast_add,
      Nat.cast_one]
  rw [hval]
  unfold MAX_SCAN_GRIND_ITERATIONS at ht
  exact sampleGroup_natCast_ne_zero (by omega) (by omega)

theorem grind_canonical_sample :
    sampleGrinder.curve.Clear (sampleGrinder.curve.publicKey sampleBase)
        MAX_SCAN_GRIND_ITERATIONS ∧
      sampleGrinder.findInTurn (sampleGrinder.curve.publicKey sampleBase) 0 [1, 2, 300] =
        sampleGrinder.findScanTweak (sampleGrinder.curve.publicKey sampleBase) 0 300 ∧
      sampleGrinder.groundClaimKeypairStatic sampleBase = .ok (2, ⟨3, by decide⟩, 3) := by
  obtain ⟨hchunks, -, -, hground⟩ := Grinder.grind_canonical sampleGrinder
    (sampleGrinder.curve.publicKey sampleBase) sampleGrinder_clear
  refine ⟨sampleGrinder_clear, hchunks 0 [1, 2] 300 (by decide), ?_⟩
  refine ((hground sampleBase rfl).1 2 ⟨3, by decide⟩ 3).2 ⟨⟨by decide, by decide⟩, ?_, ?_, ?_, ?_⟩
  · decide +kernel
  · decide +kernel
  · decide +kernel
  · intro s q _ hs hq
    have hs : s = 0 ∨ s = 1 := by omega
    rcases hs with rfl | rfl
    · obtain rfl : q = ⟨1, by decide⟩ := Subtype.ext (hq.trans (by decide +kernel))
      decide +kernel
    · obtain rfl : q = ⟨2, by decide⟩ := Subtype.ext (hq.trans (by decide +kernel))
      decide +kernel

end Experimint.FedimintUsdt
