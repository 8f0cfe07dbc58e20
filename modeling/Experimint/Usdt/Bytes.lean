import Mathlib.Data.List.Induction
import Experimint.Usdt.Types

/-!
# Big-endian bytes

`ofBeBytes` reads a number back from its big-endian bytes: it undoes `toBeBytes` on numbers that fit
(`ofBeBytes_toBeBytes`) and `toBeBytes` undoes it on every byte string (`toBeBytes_ofBeBytes`).
-/

set_option autoImplicit false

namespace Experimint.FedimintUsdt

/-- The number a big-endian byte string denotes. -/
def ofBeBytes (bytes : Bytes) : Nat := bytes.foldl (fun n b => n * 256 + b.toNat) 0

@[simp] theorem length_toBeBytes (len n : Nat) : (toBeBytes len n).length = len := by
  induction len generalizing n with
  | zero => rfl
  | succ len ih => rw [toBeBytes, List.length_append, ih, List.length_singleton]

theorem ofBeBytes_concat (bytes : Bytes) (b : UInt8) :
    ofBeBytes (bytes ++ [b]) = ofBeBytes bytes * 256 + b.toNat := by
  rw [ofBeBytes, List.foldl_append]
  rfl

theorem ofBeBytes_lt (bytes : Bytes) : ofBeBytes bytes < 256 ^ bytes.length := by
  induction bytes using List.reverseRecOn with
  | nil => decide
  | append_singleton bytes b ih =>
    have hbyte := b.toNat_lt
    rw [ofBeBytes_concat, List.length_append, List.length_singleton, Nat.pow_succ]
    omega

theorem ofBeBytes_toBeBytes {len n : Nat} (h : n < 256 ^ len) :
    ofBeBytes (toBeBytes len n) = n := by
  induction len generalizing n with
  | zero =>
    rw [Nat.pow_zero] at h
    obtain rfl : n = 0 := by omega
    rfl
  | succ len ih =>
    rw [Nat.pow_succ] at h
    have hbyte : (UInt8.ofNat (n % 256)).toNat = n % 256 := by
      rw [UInt8.toNat_ofNat']
      omega
    rw [toBeBytes, ofBeBytes_concat, ih (by omega), hbyte]
    omega

theorem toBeBytes_ofBeBytes (bytes : Bytes) :
    toBeBytes bytes.length (ofBeBytes bytes) = bytes := by
  induction bytes using List.reverseRecOn with
  | nil => rfl
  | append_singleton bytes b ih =>
    have hbyte := b.toNat_lt
    have hdiv : (ofBeBytes bytes * 256 + b.toNat) / 256 = ofBeBytes bytes := by omega
    have hmod : (ofBeBytes bytes * 256 + b.toNat) % 256 = b.toNat := by omega
    rw [List.length_append, List.length_singleton, toBeBytes, ofBeBytes_concat, hdiv, hmod, ih,
      UInt8.ofNat_toNat]

/-- Big-endian bytes determine a number that fits. -/
theorem toBeBytes_inj {len a b : Nat} (h : toBeBytes len a = toBeBytes len b)
    (ha : a < 256 ^ len) (hb : b < 256 ^ len) : a = b := by
  rw [← ofBeBytes_toBeBytes ha, h, ofBeBytes_toBeBytes hb]

end Experimint.FedimintUsdt
