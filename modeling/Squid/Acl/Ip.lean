import Squid.Base.Splay
import Squid.Ip.Address

/-!
# `ACLIP`

The address lists of `src/acl/Ip.cc`.  `FactoryParse` turns a token of the configuration into
entries, `parse` inserts them into a splay tree under `NetworkCompare`, which looks for overlaps in
both directions, and `match` searches that tree under `aclIpAddrNetworkCompare`, which masks the
address with the mask of every entry it meets.

IPv6 is enabled.  A mask is a prefix length; netmasks in dotted notation are not modelled.
-/

namespace Squid

open Ip

/-- `acl_ip_data`. -/
structure AclIpData where
  addr1 : Address := 0
  addr2 : Address := 0
  mask : Address := 0
  deriving DecidableEq

def aclIpAddrNetworkCompare (p q : AclIpData) : ℤ :=
  let A := p.addr1.ApplyMask q.mask
  if q.addr2.IsAnyAddr then
    A.matchIPAddr q.addr1
  else if A.ge q.addr1 && A.le q.addr2 then
    0
  else
    A.matchIPAddr q.addr1

namespace AclIpData

/-- `acl_ip_data::NetworkCompare`. -/
def NetworkCompare (a b : AclIpData) : ℤ :=
  if aclIpAddrNetworkCompare b a ≠ 0 then aclIpAddrNetworkCompare a b else 0

/-- A mask given as a number. -/
structure Cidr where
  length : ℕ
  /-- Other numbers are not taken for a prefix length. -/
  length_le : length ≤ 128

/-- What is left of a token after scanning and address conversion. -/
inductive Token
  | all
  | ipv4
  | ipv6
  /-- A host name, with the addresses it was found to have. -/
  | located (addresses : List Address)
  /-- `addr1-addr2/mask`, where the last two may be missing. -/
  | addresses (iptype : Family) (addr1 : Address) (addr2 : Option Address) (mask : Option Cidr)

def DecodeMask (mask : Option Cidr) (ctype : Family) : Option Address :=
  match mask with
  | none => some Address.v6_noaddr
  | some cidr => Address.v6_noaddr.ApplyMaskCidr cidr.length ctype

/-- An entry for the unicast space of IPv6. -/
def unicast (addr1 : Address) (cidr : ℕ) : AclIpData :=
  { addr1, mask := (Address.v6_noaddr.ApplyMaskCidr cidr .AF_INET6).getD Address.v6_noaddr }

/-- The loop over what `getaddrinfo` returned, which drops repeated addresses. -/
def locate : Option Address → List Address → List AclIpData
  | _, [] => []
  | prev_addr, address :: rest =>
      if prev_addr = some address then
        locate prev_addr rest
      else
        { addr1 := address, addr2 := Address.v6_anyaddr, mask := Address.v6_noaddr } ::
          locate (some address) rest

/-- `FactoryParse`, where `none` is `self_destruct`. -/
def FactoryParse : Token → Option (List AclIpData)
  | .all => some [{ addr1 := Address.v6_anyaddr, addr2 := 0, mask := Address.v6_anyaddr }]
  | .ipv4 => some [{ mask := (Address.v6_noaddr.ApplyMaskCidr 0 .AF_INET).getD Address.v6_noaddr }]
  | .ipv6 =>
      some
        [unicast (0x1000#128 <<< 112) 4, unicast (0x2000#128 <<< 112) 3,
          unicast (0x4000#128 <<< 112) 2, unicast (0x8000#128 <<< 112) 2,
          unicast (0xC000#128 <<< 112) 3, unicast (0xE000#128 <<< 112) 4,
          unicast (0xFC00#128 <<< 112) 7, unicast (0xFE80#128 <<< 112) 10]
  | .located addresses => some (locate none addresses)
  | .addresses iptype addr1 addr2 mask =>
      (DecodeMask mask iptype).map fun mask =>
        [{ addr1 := addr1.ApplyMask mask
           addr2 := (addr2.getD Address.v6_anyaddr).ApplyMask mask
           mask }]

end AclIpData

namespace ACLIP

open AclIpData

abbrev IPSplay := SplayNode AclIpData

/-- One round of the inner loop of `parse`. -/
def insert (data : IPSplay) (q : AclIpData) : IPSplay := data.insert q (NetworkCompare q)

/-- `ACLIP::parse`, where `none` is `self_destruct`. -/
def parse (data : IPSplay) (tokens : List Token) : Option IPSplay :=
  tokens.foldlM (fun data token => (FactoryParse token).map (List.foldl insert data)) data

/-- `ACLIP::match`, with the tree that the search leaves. -/
def matchClient (data : IPSplay) (clientip : Address) : Bool × IPSplay :=
  let ClientAddress : AclIpData := { addr1 := clientip }
  let (splayLastResult, data) := data.splay (aclIpAddrNetworkCompare ClientAddress)
  (splayLastResult == 0, data)

/-- The tree after some searches. -/
def afterMatches (data : IPSplay) (clients : List Address) : IPSplay :=
  clients.foldl (fun data clientip => (matchClient data clientip).2) data

end ACLIP

/-! ## Entries as sets of addresses -/

/-- What an entry of the configuration means. -/
inductive IpEntry
  /-- A single address. -/
  | address (iptype : Family) (addr : Address)
  /-- The addresses that agree with the given one in the first bits. -/
  | block (iptype : Family) (addr : Address) (cidr : AclIpData.Cidr)
  /-- The addresses from the first one to the last one. -/
  | range (iptype : Family) (addr1 addr2 : Address)

namespace IpEntry

open AclIpData

/-- Number of bits of an address of the family. -/
def bits (iptype : Family) : ℕ := if iptype = .AF_INET6 then 128 else 32

/-- Number of bits that a mask leaves out. -/
def hostBits (iptype : Family) (cidr : Cidr) : ℕ := bits iptype - cidr.length

/-- The token for an entry. -/
def token : IpEntry → Token
  | address iptype addr => .addresses iptype addr none none
  | block iptype addr cidr => .addresses iptype addr none (some cidr)
  | range iptype addr1 addr2 => .addresses iptype addr1 (some addr2) none

/-- The address lies in the entry. -/
def Contains : IpEntry → Address → Prop
  | address _ addr, ip => ip = addr
  | block iptype addr cidr, ip =>
      ip.toNat / 2 ^ hostBits iptype cidr = addr.toNat / 2 ^ hostBits iptype cidr
  | range _ addr1 addr2, ip => addr1.toNat ≤ ip.toNat ∧ ip.toNat ≤ addr2.toNat

/-- The entry as `FactoryParse` builds it. -/
def stored : IpEntry → AclIpData
  | address _ addr => { addr1 := addr, mask := Address.v6_noaddr }
  | block iptype addr cidr =>
      let mask := Address.prefixMask (hostBits iptype cidr)
      { addr1 := addr.ApplyMask mask, mask }
  | range _ addr1 addr2 => { addr1, addr2, mask := Address.v6_noaddr }

/-- A prefix has at least one bit and no more than there are, a range goes upwards, and no end of
an entry is the unspecified or the all-ones address. -/
def Proper : IpEntry → Prop
  | address _ addr => addr.IsSpecial = false
  | block iptype addr cidr =>
      cidr.length ≠ 0 ∧ cidr.length ≤ bits iptype ∧
        (addr.ApplyMask (Address.prefixMask (hostBits iptype cidr))).IsSpecial = false
  | range _ addr1 addr2 =>
      addr1.IsSpecial = false ∧ addr2.IsSpecial = false ∧ addr1.toNat ≤ addr2.toNat

instance (e : IpEntry) (ip : Address) : Decidable (e.Contains ip) :=
  match e with
  | address _ _ => inferInstanceAs (Decidable (_ = _))
  | block _ _ _ => inferInstanceAs (Decidable (_ = _))
  | range _ _ _ => inferInstanceAs (Decidable (_ ∧ _))

instance (e : IpEntry) : Decidable e.Proper :=
  match e with
  | address _ _ => inferInstanceAs (Decidable (_ = _))
  | block _ _ _ => inferInstanceAs (Decidable (_ ∧ _))
  | range _ _ _ => inferInstanceAs (Decidable (_ ∧ _))

/-- The first address, as a number. -/
def first (e : IpEntry) : ℕ := e.stored.addr1.toNat

/-- The last address, as a number. -/
def last : IpEntry → ℕ
  | address _ addr => addr.toNat
  | block iptype addr cidr =>
      addr.toNat / 2 ^ hostBits iptype cidr * 2 ^ hostBits iptype cidr +
        (2 ^ hostBits iptype cidr - 1)
  | range _ _ addr2 => addr2.toNat

variable {e : IpEntry}

theorem FactoryParse_token (proper : e.Proper) : FactoryParse e.token = some [e.stored] := by
  cases e with
  | address iptype addr =>
      simp [FactoryParse, token, DecodeMask, stored, Address.v6_anyaddr]
  | block iptype addr cidr =>
      obtain ⟨positive, bounded, -⟩ := proper
      have mask := Address.ApplyMaskCidr_noaddr positive bounded
      have any : (Address.v6_anyaddr).ApplyMask (Address.prefixMask (hostBits iptype cidr)) = 0 :=
        Address.ApplyMask_anyaddr _
      simp only [FactoryParse, token, DecodeMask, mask, stored, Option.map_some, Option.getD_none]
      exact congrArg (fun addr2 => some [AclIpData.mk _ addr2 _]) any
  | range iptype addr1 addr2 =>
      simp [FactoryParse, token, DecodeMask, stored]

theorem div_eq_iff (x : ℕ) {y weight : ℕ} (positive : 0 < weight) :
    x / weight = y / weight ↔
      y / weight * weight ≤ x ∧ x ≤ y / weight * weight + (weight - 1) := by
  have low := Nat.div_add_mod x weight
  have bound := Nat.mod_lt x positive
  constructor
  · intro same
    rw [← same, Nat.mul_comm]
    omega
  · rintro ⟨above, below⟩
    refine le_antisymm ?_ ((Nat.le_div_iff_mul_le positive).2 above)
    refine Nat.le_of_lt_succ ((Nat.div_lt_iff_lt_mul positive).2 ?_)
    rw [Nat.succ_mul]
    omega

theorem first_block (iptype : Family) (addr : Address) (cidr : Cidr) :
    (block iptype addr cidr).first =
      addr.toNat / 2 ^ hostBits iptype cidr * 2 ^ hostBits iptype cidr :=
  Address.toNat_ApplyMask addr _

/-- An entry is the interval from its first to its last address. -/
theorem contains_iff (e : IpEntry) (ip : Address) :
    e.Contains ip ↔ e.first ≤ ip.toNat ∧ ip.toNat ≤ e.last := by
  cases e with
  | address iptype addr =>
      simp only [Contains, first, stored, last]
      constructor
      · rintro rfl
        exact ⟨le_rfl, le_rfl⟩
      · rintro ⟨above, below⟩
        exact BitVec.eq_of_toNat_eq (le_antisymm below above)
  | block iptype addr cidr =>
      rw [first_block]
      exact div_eq_iff _ (Nat.two_pow_pos _)
  | range iptype addr1 addr2 => rfl

theorem first_le_last (proper : e.Proper) : e.first ≤ e.last := by
  cases e with
  | address iptype addr => exact le_rfl
  | block iptype addr cidr =>
      rw [first_block]
      exact Nat.le_add_right _ _
  | range iptype addr1 addr2 => exact proper.2.2

theorem addr1_isSpecial (proper : e.Proper) : e.stored.addr1.IsSpecial = false := by
  cases e with
  | address iptype addr => exact proper
  | block iptype addr cidr => exact proper.2.2
  | range iptype addr1 addr2 => exact proper.1

end IpEntry

/-- Where a number is with respect to an interval. -/
def position (first last x : ℕ) : ℤ := if x < first then -1 else if last < x then 1 else 0

/-- Rounding down to a multiple of the block size does not change where a number is with respect
to the block. -/
theorem position_block (x y : ℕ) {size : ℕ} (positive : 0 < size) :
    (if x / size * size < y / size * size then (-1 : ℤ)
      else if y / size * size < x / size * size then 1 else 0) =
      position (y / size * size) (y / size * size + (size - 1)) x := by
  have monotone : ∀ a b : ℕ, a * size < b * size ↔ a < b := fun a b =>
    Nat.mul_lt_mul_right positive
  have below : x / size < y / size ↔ x < y / size * size := Nat.div_lt_iff_lt_mul positive
  have above : y / size < x / size ↔ y / size * size + (size - 1) < x := by
    rw [← Nat.succ_le_iff, Nat.le_div_iff_mul_le positive, Nat.succ_mul]
    omega
  simp only [monotone, below, above, position]

theorem position_range {x first last : ℕ} (upwards : first ≤ last) :
    (if first ≤ x ∧ x ≤ last then (0 : ℤ) else if x < first then -1 else if first < x then 1 else 0) =
      position first last x := by
  unfold position
  by_cases below : x < first
  · simp [below]
  · by_cases above : last < x
    · have greater : first < x := by omega
      simp [above, below, greater]
    · have inside : first ≤ x ∧ x ≤ last := by omega
      simp [above, below, inside]

namespace IpEntry

open AclIpData

theorem aclIpAddrNetworkCompare_stored {e : IpEntry} (proper : e.Proper) {p : AclIpData}
    (plain : p.addr1.IsSpecial = false) :
    aclIpAddrNetworkCompare p e.stored = position e.first e.last p.addr1.toNat := by
  cases e with
  | address iptype addr =>
      have any : (0 : Address).IsAnyAddr = true := by decide
      simp only [aclIpAddrNetworkCompare, stored, any, if_true, Address.ApplyMask_noaddr,
        Address.matchIPAddr_eq]
      rfl
  | block iptype addr cidr =>
      have any : (0 : Address).IsAnyAddr = true := by decide
      simp only [aclIpAddrNetworkCompare, stored, any, if_true, Address.matchIPAddr_eq,
        Address.toNat_ApplyMask]
      rw [first_block]
      exact position_block _ _ (Nat.two_pow_pos _)
  | range iptype addr1 addr2 =>
      obtain ⟨plain1, plain2, upwards⟩ := proper
      have bounded : addr2.IsAnyAddr = false := by
        simp only [Address.IsSpecial, Bool.or_eq_false_iff] at plain2
        exact plain2.1
      simp only [aclIpAddrNetworkCompare, stored, bounded, Bool.false_eq_true, if_false,
        Address.ApplyMask_noaddr, Address.matchIPAddr_eq, Address.ge_eq plain,
        Address.le_eq plain, Bool.and_eq_true, decide_eq_true_eq]
      exact position_range upwards

/-- Two entries without a common address are ordered by their first ones. -/
theorem NetworkCompare_stored {e f : IpEntry} (proper_e : e.Proper) (proper_f : f.Proper)
    (disjoint : e.last < f.first ∨ f.last < e.first) :
    NetworkCompare e.stored f.stored = if e.first < f.first then -1 else 1 := by
  have forward : aclIpAddrNetworkCompare f.stored e.stored = position e.first e.last f.first :=
    aclIpAddrNetworkCompare_stored proper_e (addr1_isSpecial proper_f)
  have backward : aclIpAddrNetworkCompare e.stored f.stored = position f.first f.last e.first :=
    aclIpAddrNetworkCompare_stored proper_f (addr1_isSpecial proper_e)
  have upwards_e := first_le_last proper_e
  have upwards_f := first_le_last proper_f
  rw [NetworkCompare, forward, backward]
  rcases disjoint with before | after
  · have less : e.first < f.first := by omega
    have below : ¬ f.first < e.first := by omega
    simp [position, less, below, before]
  · have less : f.first < e.first := by omega
    have above : ¬ e.first < f.first := by omega
    simp [position, less, above, after]

end IpEntry

end Squid
