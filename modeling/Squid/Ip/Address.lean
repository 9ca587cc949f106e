import Mathlib.Algebra.Order.Ring.Nat
import Mathlib.Algebra.Order.Ring.Int
import Mathlib.Tactic.Ring

/-!
# `Ip::Address`

The part of `src/ip/Address.cc` that address lists use.  An address is the 128 bits of `sin6_addr`,
the first byte most significant; IPv4 addresses are mapped.  Comparison is byte by byte, from the
first one, and agrees with the numeric order.  Applying a CIDR mask rounds down to a multiple of a
power of two.
-/

namespace Squid
namespace Ip

/-- `sin6_addr`. -/
abbrev Address := BitVec 128

/-- Address families, as `FactoryParse` passes them to `DecodeMask`. -/
inductive Family
  | AF_UNSPEC
  | AF_INET
  | AF_INET6
  deriving DecidableEq

namespace Address

/-- The unspecified IPv6 address. -/
def v6_anyaddr : Address := 0

def v4_anyaddr : Address := 0xffff00000000#128

def v4_noaddr : Address := 0xffffffffffff#128

def v6_noaddr : Address := BitVec.allOnes 128

def IsAnyAddr (a : Address) : Bool := a == v6_anyaddr || a == v4_anyaddr

def IsNoAddr (a : Address) : Bool := a == v6_noaddr || a == v4_noaddr

/-- `ApplyMask` of another address; the count of changed words it returns is only reported. -/
def ApplyMask (a mask : Address) : Address := a &&& mask

/-- The loop of `ApplyMask`, which clears bits from byte `15 - p` on. -/
def clearBytes : ℕ → ℕ → ℕ → Address → Address
  | 0, _, _, a => a
  | bytes + 1, clearbits, p, a =>
      if clearbits = 0 then
        a
      else if clearbits < 8 then
        a &&& ~~~(BitVec.ofNat 128 (2 ^ clearbits - 1) <<< (8 * p))
      else
        clearBytes bytes (clearbits - 8) (p + 1) (a &&& ~~~(0xff#128 <<< (8 * p)))

/-- `ApplyMask` of a prefix length; `none` is false. -/
def ApplyMaskCidr (a : Address) (cidr : ℕ) (mtype : Family) : Option Address :=
  if 128 < cidr then
    none
  else if 32 < cidr ∧ mtype = .AF_INET then
    none
  else if cidr = 0 then
    some v6_noaddr
  else
    -- a `uint8_t`
    let clearbits := ((if mtype = .AF_INET6 then 128 else 32) + 256 - cidr) % 256
    some (clearBytes 16 clearbits 0 a)

/-- Byte `15 - p`. -/
def byteAt (a : Address) (p : ℕ) : ℕ := a.toNat / 256 ^ p % 256

/-- `IsIPv4`: the address is a mapped one. -/
def IsIPv4 (a : Address) : Bool := a.toNat / 2 ^ 32 == 0xffff

/-- `ntohl` of what `GetInAddr` stores for an IPv4 address. -/
def GetInAddr (a : Address) : ℕ := a.toNat % 2 ^ 32

/-- The loop of `matchIPAddr` over the last `bytes` bytes. -/
def matchBytes (l r : Address) : ℕ → ℤ
  | 0 => 0
  | bytes + 1 =>
      if l.byteAt bytes < r.byteAt bytes then
        -1
      else if r.byteAt bytes < l.byteAt bytes then
        1
      else
        matchBytes l r bytes

def matchIPAddr (l r : Address) : ℤ := matchBytes l r 16

/-- `operator <=`. -/
def le (l r : Address) : Bool :=
  if l.IsAnyAddr && !r.IsAnyAddr then true else l.matchIPAddr r ≤ 0

/-- `operator >=`. -/
def ge (l r : Address) : Bool :=
  if l.IsNoAddr && !r.IsNoAddr then true else 0 ≤ l.matchIPAddr r

/-! ## The order of addresses -/

theorem toNat_mod_succ (a : Address) (bytes : ℕ) :
    a.toNat % 256 ^ (bytes + 1) = a.byteAt bytes * 256 ^ bytes + a.toNat % 256 ^ bytes := by
  rw [byteAt, pow_succ, Nat.mod_mul]
  ring

/-- A byte outweighs those that follow. -/
theorem bytes_lt {high high' low low' weight : ℕ} (less : high < high') (bound : low < weight) :
    high * weight + low < high' * weight + low' :=
  calc high * weight + low < high * weight + weight := by omega
    _ = (high + 1) * weight := by ring
    _ ≤ high' * weight := Nat.mul_le_mul_right _ less
    _ ≤ high' * weight + low' := Nat.le_add_right _ _

theorem matchBytes_eq (l r : Address) (bytes : ℕ) :
    matchBytes l r bytes =
      if l.toNat % 256 ^ bytes < r.toNat % 256 ^ bytes then -1
      else if r.toNat % 256 ^ bytes < l.toNat % 256 ^ bytes then 1 else 0 := by
  induction bytes with
  | zero => simp [matchBytes, Nat.mod_one]
  | succ bytes ih =>
      have positive : 0 < 256 ^ bytes := pow_pos (by decide) bytes
      rw [matchBytes, toNat_mod_succ, toNat_mod_succ, ih]
      rcases lt_trichotomy (l.byteAt bytes) (r.byteAt bytes) with less | same | greater
      · rw [if_pos less, if_pos (bytes_lt less (Nat.mod_lt _ positive))]
      · simp [same]
      · have reverse := @bytes_lt _ _ _ (l.toNat % 256 ^ bytes) _ greater (Nat.mod_lt r.toNat positive)
        rw [if_neg greater.not_gt, if_pos greater, if_neg reverse.not_gt, if_pos reverse]

/-- `matchIPAddr` compares addresses as numbers. -/
theorem matchIPAddr_eq (l r : Address) :
    l.matchIPAddr r = if l.toNat < r.toNat then -1 else if r.toNat < l.toNat then 1 else 0 := by
  have small : ∀ a : Address, a.toNat % 256 ^ 16 = a.toNat := fun a => Nat.mod_eq_of_lt a.isLt
  rw [matchIPAddr, matchBytes_eq, small, small]

theorem matchIPAddr_eq_zero_iff (l r : Address) : l.matchIPAddr r = 0 ↔ l = r := by
  rw [matchIPAddr_eq]
  constructor
  · intro zero
    apply BitVec.eq_of_toNat_eq
    split at zero
    · cases zero
    · split at zero
      · cases zero
      · omega
  · rintro rfl
    simp

/-- One of the addresses that the comparison operators treat on their own. -/
def IsSpecial (a : Address) : Bool := a.IsAnyAddr || a.IsNoAddr

variable {l r : Address}

theorem le_eq (plain : l.IsSpecial = false) : l.le r = decide (l.toNat ≤ r.toNat) := by
  simp only [IsSpecial, Bool.or_eq_false_iff] at plain
  simp only [le, plain.1, Bool.false_and, Bool.false_eq_true, if_false, matchIPAddr_eq]
  rcases lt_trichotomy l.toNat r.toNat with less | same | greater
  · simp [less, less.le]
  · simp [same]
  · simp [greater, not_lt.2 greater.le, not_le.2 greater]

theorem ge_eq (plain : l.IsSpecial = false) : l.ge r = decide (r.toNat ≤ l.toNat) := by
  simp only [IsSpecial, Bool.or_eq_false_iff] at plain
  simp only [ge, plain.2, Bool.false_and, Bool.false_eq_true, if_false, matchIPAddr_eq]
  rcases lt_trichotomy l.toNat r.toNat with less | same | greater
  · simp [less, not_le.2 less]
  · simp [same]
  · simp [greater, not_lt.2 greater.le, greater.le]

/-! ## Masks -/

@[simp]
theorem ApplyMask_noaddr (a : Address) : a.ApplyMask v6_noaddr = a := BitVec.and_allOnes

@[simp]
theorem ApplyMask_anyaddr (mask : Address) : v6_anyaddr.ApplyMask mask = v6_anyaddr :=
  BitVec.zero_and

/-- The mask that leaves out the last `host` bits. -/
def prefixMask (host : ℕ) : Address := BitVec.allOnes 128 <<< host

theorem getLsbD_lowBits {bits i : ℕ} (p : ℕ) (inside : i < 128) :
    (~~~(BitVec.ofNat 128 (2 ^ bits - 1) <<< p)).getLsbD i =
      !(decide (p ≤ i) && decide (i < p + bits)) := by
  simp only [BitVec.getLsbD_not, BitVec.getLsbD_shiftLeft, BitVec.getLsbD_ofNat,
    Nat.testBit_two_pow_sub_one, inside, decide_true, Bool.true_and]
  by_cases low : p ≤ i
  · have shifted : i - p < 128 := by omega
    have bound : i - p < bits ↔ i < p + bits := by omega
    simp [low, shifted, bound, not_lt.2 low]
  · simp [low, not_le.1 low]

theorem getLsbD_clearBytes (bytes clearbits p : ℕ) (a : Address) {i : ℕ} (inside : i < 128) :
    (clearBytes bytes clearbits p a).getLsbD i =
      (a.getLsbD i &&
        !(decide (8 * p ≤ i) && decide (i < 8 * p + min clearbits (8 * bytes)))) := by
  induction bytes generalizing clearbits p a with
  | zero => by_cases low : 8 * p ≤ i <;> simp [clearBytes, low]
  | succ bytes ih =>
      unfold clearBytes
      split
      · rename_i none
        subst none
        by_cases low : 8 * p ≤ i <;> simp [low]
      · split
        · have all : min clearbits (8 * (bytes + 1)) = clearbits := by omega
          rw [BitVec.getLsbD_and, getLsbD_lowBits _ inside, all]
        · have byte := @getLsbD_lowBits 8 i (8 * p) inside
          simp only [Nat.reducePow, Nat.add_one_sub_one] at byte
          rw [ih, BitVec.getLsbD_and, byte, Bool.and_assoc, ← Bool.not_or]
          congr 2
          by_cases low : 8 * p ≤ i
          · by_cases high : i < 8 * p + 8
            · have all : i < 8 * p + min clearbits (8 * (bytes + 1)) := by omega
              simp [low, high, all]
            · have next : 8 * (p + 1) ≤ i := by omega
              have same : (i < 8 * (p + 1) + min (clearbits - 8) (8 * bytes)) =
                  (i < 8 * p + min clearbits (8 * (bytes + 1))) := by
                congr 1
                omega
              simp only [low, high, next, same, decide_true, decide_false, Bool.and_false,
                Bool.false_or]
          · have next : ¬ 8 * (p + 1) ≤ i := by omega
            simp [low, next]

variable {host : ℕ}

theorem getLsbD_prefixMask {i : ℕ} (inside : i < 128) :
    (prefixMask host).getLsbD i = decide (host ≤ i) := by
  simp only [prefixMask, BitVec.getLsbD_shiftLeft, BitVec.getLsbD_allOnes, inside, decide_true,
    Bool.true_and]
  by_cases low : host ≤ i
  · have shifted : i - host < 128 := by omega
    simp [low, shifted]
  · simp [low]

theorem clearBytes_noaddr (clearbits : ℕ) :
    clearBytes 16 clearbits 0 v6_noaddr = prefixMask (min clearbits 128) := by
  refine BitVec.eq_of_getLsbD_eq fun i inside => ?_
  rw [getLsbD_clearBytes 16 _ 0 _ inside, getLsbD_prefixMask inside, v6_noaddr,
    BitVec.getLsbD_allOnes]
  simp only [inside, Nat.mul_zero, Nat.zero_le, Nat.zero_add, decide_true, Bool.true_and,
    ← decide_not, not_lt, Nat.reduceMul]

variable {cidr : ℕ} {mtype : Family}

/-- What `SetNoAddr` followed by `ApplyMask` of a prefix length gives. -/
theorem ApplyMaskCidr_noaddr (positive : cidr ≠ 0)
    (bounded : cidr ≤ if mtype = .AF_INET6 then 128 else 32) :
    ApplyMaskCidr v6_noaddr cidr mtype =
      some (prefixMask ((if mtype = .AF_INET6 then 128 else 32) - cidr)) := by
  generalize width : (if mtype = .AF_INET6 then 128 else 32) = bits at bounded
  have small : bits ≤ 128 ∧ (mtype = .AF_INET → bits = 32) := by
    rw [← width]
    cases mtype <;> simp
  have clearbits : min ((bits + 256 - cidr) % 256) 128 = bits - cidr := by omega
  rw [ApplyMaskCidr, if_neg (by omega), if_neg, if_neg positive, width]
  · dsimp only
    rw [clearBytes_noaddr, clearbits]
  · rintro ⟨long, ipv4⟩
    have := small.2 ipv4
    omega

/-- Whatever `ApplyMask` makes of the all-ones address is a prefix. -/
theorem exists_prefixMask {mask : Address}
    (applied : ApplyMaskCidr v6_noaddr cidr mtype = some mask) :
    ∃ host ≤ 128, mask = prefixMask host := by
  have ones : v6_noaddr = prefixMask 0 := rfl
  unfold ApplyMaskCidr at applied
  split at applied
  · cases applied
  · split at applied
    · cases applied
    · split at applied
      · cases applied
        exact ⟨0, Nat.zero_le _, ones⟩
      · dsimp only at applied
        rw [clearBytes_noaddr, Option.some.injEq] at applied
        exact ⟨_, min_le_right _ _, applied.symm⟩

theorem toNat_not_prefixMask (bound : host ≤ 128) : (~~~prefixMask host).toNat = 2 ^ host - 1 := by
  have ones : ~~~prefixMask host = BitVec.ofNat 128 (2 ^ host - 1) := by
    refine BitVec.eq_of_getLsbD_eq fun i inside => ?_
    rw [BitVec.getLsbD_not, getLsbD_prefixMask inside, BitVec.getLsbD_ofNat,
      Nat.testBit_two_pow_sub_one]
    simp [inside, ← decide_not]
  have small : 2 ^ host ≤ 2 ^ 128 := Nat.pow_le_pow_right (by decide) bound
  have positive := Nat.two_pow_pos host
  rw [ones, BitVec.toNat_ofNat, Nat.mod_eq_of_lt (by omega)]

/-- A mask rounds an address down. -/
theorem toNat_ApplyMask (a : Address) (host : ℕ) :
    (a.ApplyMask (prefixMask host)).toNat = a.toNat / 2 ^ host * 2 ^ host := by
  have shifts : a.ApplyMask (prefixMask host) = (a >>> host) <<< host := by
    refine BitVec.eq_of_getLsbD_eq fun i below => ?_
    rw [ApplyMask, BitVec.getLsbD_and, getLsbD_prefixMask below, BitVec.getLsbD_shiftLeft,
      BitVec.getLsbD_ushiftRight]
    by_cases low : host ≤ i
    · simp [low, below, Nat.add_sub_cancel' low, not_lt.2 low]
    · simp [low, not_le.1 low]
  have whole : a.toNat / 2 ^ host * 2 ^ host < 2 ^ 128 :=
    lt_of_le_of_lt (Nat.div_mul_le_self _ _) a.isLt
  rw [shifts, BitVec.toNat_shiftLeft, BitVec.toNat_ushiftRight, Nat.shiftRight_eq_div_pow,
    Nat.shiftLeft_eq, Nat.mod_eq_of_lt whole]

end Address
end Ip
end Squid
