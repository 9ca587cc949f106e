import Squid.Acl.IpMatch

/-!
# Overlaps in address lists

`NetworkCompare` reports a collision when the first address of one of the two entries is taken for
one of the other, and `parse` then drops the new entry.  Entries are intervals.  Blocks are nested
or disjoint, and so are a single address and a range, so no address is lost where the new entry is
the smaller one.  A larger entry is ignored as a whole, which the warning says; a range may be
dropped although it is only in part covered.
-/

namespace Squid

open Ip List Option

namespace AclIpData

open IpEntry

/-- The entry has a second address. -/
def isRange (q : AclIpData) : Bool := !q.addr2.IsAnyAddr

/-- The last address that is compared.  A range downwards has its first address only. -/
def lastAddr (q : AclIpData) : ℕ :=
  if q.isRange then max q.addr1.toNat q.addr2.toNat else q.addr1.toNat

/-- The addresses of an entry. -/
def Covers (q : AclIpData) (ip : Address) : Prop :=
  q.addr1.toNat ≤ (ip.ApplyMask q.mask).toNat ∧ (ip.ApplyMask q.mask).toNat ≤ q.lastAddr

instance (q : AclIpData) (ip : Address) : Decidable (q.Covers ip) :=
  inferInstanceAs (Decidable (_ ∧ _))

/-- The first address, as a number. -/
def first (q : AclIpData) : ℕ := q.addr1.toNat

/-- The last address, as a number. -/
def last (q : AclIpData) : ℕ := q.lastAddr + (~~~q.mask).toNat

/-- The first entry begins before the second one and ends in it. -/
def Straddles (q t : AclIpData) : Prop :=
  q.first < t.first ∧ t.first ≤ q.last ∧ q.last < t.last

instance (q t : AclIpData) : Decidable (q.Straddles t) := inferInstanceAs (Decidable (_ ∧ _))

/-- The comparison operators take the first address of an entry, one of those that they treat on
their own, for one of a range that does not have it. -/
def Mistaken (p q : AclIpData) : Prop :=
  q.isRange = true ∧ (p.addr1.ApplyMask q.mask).IsSpecial = true ∧ ¬ q.Covers p.addr1

instance (p q : AclIpData) : Decidable (p.Mistaken q) := inferInstanceAs (Decidable (_ ∧ _))

theorem multiple_add_le {a b size : ℕ} (less : a * size < b * size) :
    a * size + size ≤ b * size := by
  rw [← Nat.succ_mul]
  exact Nat.mul_le_mul_right _ (Nat.lt_of_mul_lt_mul_right less)

/-- The mask is a prefix, and the two addresses have no bits outside of it. -/
structure Network (q : AclIpData) (host : ℕ) : Prop where
  bound : host ≤ 128
  mask : q.mask = Address.prefixMask host
  masked1 : q.addr1.ApplyMask q.mask = q.addr1
  masked2 : q.addr2.ApplyMask q.mask = q.addr2

namespace Network

variable {q t : AclIpData} {host host' : ℕ}

section

variable (network : Network q host)
include network

theorem exists_multiples :
    (∃ k, q.addr1.toNat = k * 2 ^ host) ∧ ∃ k, q.lastAddr = k * 2 ^ host := by
  have multiple : ∀ {a : Address}, a.ApplyMask q.mask = a → ∃ k, a.toNat = k * 2 ^ host := by
    intro a masked
    rw [network.mask] at masked
    exact ⟨_, by rw [← Address.toNat_ApplyMask, masked]⟩
  have one := multiple network.masked1
  refine ⟨one, ?_⟩
  unfold lastAddr
  split
  · rcases max_choice q.addr1.toNat q.addr2.toNat with upper | upper
    · rwa [upper]
    · rw [upper]
      exact multiple network.masked2
  · exact one

/-- An entry is the interval from its first to its last address. -/
theorem covers_iff (ip : Address) : q.Covers ip ↔ q.first ≤ ip.toNat ∧ ip.toNat ≤ q.last := by
  obtain ⟨⟨k, low⟩, ⟨m, high⟩⟩ := network.exists_multiples
  have positive := Nat.two_pow_pos host
  rw [Covers, first, last, low, high, network.mask, Address.toNat_ApplyMask,
    Address.toNat_not_prefixMask network.bound, Nat.mul_le_mul_right_iff positive,
    Nat.mul_le_mul_right_iff positive, Nat.le_div_iff_mul_le positive, ← @Nat.lt_succ_iff _ m,
    Nat.div_lt_iff_lt_mul positive, Nat.succ_mul]
  omega

theorem covers_addr1 : q.Covers q.addr1 := by
  have reach : q.addr1.toNat ≤ q.lastAddr := by
    unfold lastAddr
    split
    · exact le_max_left _ _
    · exact le_rfl
  rw [network.covers_iff, first, last]
  omega

/-- The last address is the one before a multiple of the size of the blocks. -/
theorem last_succ : ∃ k, q.last + 1 = k * 2 ^ host := by
  obtain ⟨-, ⟨m, high⟩⟩ := network.exists_multiples
  have positive := Nat.two_pow_pos host
  refine ⟨m + 1, ?_⟩
  rw [last, high, network.mask, Address.toNat_not_prefixMask network.bound, Nat.succ_mul]
  omega

theorem last_of_block (block : q.isRange = false) : q.last + 1 = q.first + 2 ^ host := by
  have positive := Nat.two_pow_pos host
  rw [last, lastAddr, block, network.mask, Address.toNat_not_prefixMask network.bound, first]
  simp only [Bool.false_eq_true, if_false]
  omega

/-- A block that begins before another one and ends in it would cut it. -/
theorem not_straddles (network' : Network t host') (block : q.isRange = false)
    (block' : t.isRange = false) : ¬ q.Straddles t := by
  rintro ⟨before, reached, beyond⟩
  have size := network.last_of_block block
  have size' := network'.last_of_block block'
  obtain ⟨⟨k, start⟩, -⟩ := network.exists_multiples
  obtain ⟨⟨k', start'⟩, -⟩ := network'.exists_multiples
  rw [first, start] at before size
  rw [first, start'] at before reached size'
  rcases le_total host' host with smaller | larger
  · -- the last address of `q` is the end of a block of the size of `t`
    obtain ⟨m, stop⟩ := network.last_succ
    rw [← Nat.sub_add_cancel smaller, pow_add, ← Nat.mul_assoc] at stop
    have inside : k' * 2 ^ host' + 2 ^ host' ≤ m * 2 ^ (host - host') * 2 ^ host' :=
      multiple_add_le (by omega)
    omega
  · -- so is the address before the first one of `t`, for the size of `q`
    rw [← Nat.sub_add_cancel larger, pow_add, ← Nat.mul_assoc] at before reached
    have apart := multiple_add_le before
    omega

end

end Network

variable {p q : AclIpData}

/-- The search finds an address in an entry that covers it, unless it is one of those that the
comparison operators treat on their own. -/
theorem aclIpAddrNetworkCompare_eq_zero_iff
    (plain : q.isRange = true → (p.addr1.ApplyMask q.mask).IsSpecial = false) :
    aclIpAddrNetworkCompare p q = 0 ↔ q.Covers p.addr1 := by
  cases range : q.isRange with
  | false =>
      have single : q.addr2.IsAnyAddr = true := by simpa [isRange] using range
      rw [aclIpAddrNetworkCompare, if_pos single, Address.matchIPAddr_eq_zero_iff, Covers, lastAddr,
        range, if_neg Bool.false_ne_true, ← BitVec.toNat_inj, le_antisymm_iff, and_comm]
  | true =>
      have bounded : q.addr2.IsAnyAddr = false := by simpa [isRange] using range
      simp only [aclIpAddrNetworkCompare, bounded, Bool.false_eq_true, if_false,
        Address.ge_eq (plain range), Address.le_eq (plain range), Bool.and_eq_true,
        decide_eq_true_eq, Covers, lastAddr, range, if_true, le_max_iff]
      split_ifs with inside
      · exact iff_of_true rfl ⟨inside.1, .inr inside.2⟩
      · rw [Address.matchIPAddr_eq_zero_iff, ← BitVec.toNat_inj]
        omega

theorem covers_of_compare (zero : aclIpAddrNetworkCompare p q = 0) (right : ¬ p.Mistaken q) :
    q.Covers p.addr1 := by
  by_contra outside
  refine outside ((aclIpAddrNetworkCompare_eq_zero_iff fun range => ?_).mp zero)
  exact Bool.eq_false_iff.mpr fun special => right ⟨range, special, outside⟩

theorem network_unicast {addr : Address} {cidr : ℕ}
    (bounded : cidr ≠ 0 ∧ cidr ≤ if Family.AF_INET6 = .AF_INET6 then 128 else 32)
    (aligned : addr.ApplyMask (Address.prefixMask (128 - cidr)) = addr) :
    ∃ host, Network (unicast addr cidr) host := by
  have mask := Address.ApplyMaskCidr_noaddr bounded.1 bounded.2
  refine ⟨128 - cidr, Nat.sub_le _ _, ?_, ?_, Address.ApplyMask_anyaddr _⟩
  · rw [unicast, mask]
    rfl
  · rw [unicast, mask]
    exact aligned

theorem network_located {prev_addr : Option Address} {addresses : List Address}
    (member : q ∈ locate prev_addr addresses) : ∃ host, Network q host := by
  induction addresses generalizing prev_addr with
  | nil => cases member
  | cons address rest ih =>
      unfold locate at member
      split at member
      · exact ih member
      · rcases mem_cons.mp member with rfl | later
        · exact ⟨0, Nat.zero_le _, rfl, Address.ApplyMask_noaddr _, Address.ApplyMask_noaddr _⟩
        · exact ih later

/-- What a token of the configuration gives is a network. -/
theorem network_of_parsed {token : Token} {entries : List AclIpData}
    (parsed : FactoryParse token = some entries) (member : q ∈ entries) :
    ∃ host, Network q host := by
  cases token with
  | all =>
      cases parsed
      rw [mem_singleton.mp member]
      exact ⟨128, le_rfl, by decide, by decide, by decide⟩
  | ipv4 =>
      cases parsed
      rw [mem_singleton.mp member]
      exact ⟨0, Nat.zero_le _, by decide, by decide, by decide⟩
  | ipv6 =>
      cases parsed
      simp only [mem_cons, not_mem_nil, or_false] at member
      rcases member with rfl | rfl | rfl | rfl | rfl | rfl | rfl | rfl <;>
        exact network_unicast (by decide) (by decide)
  | located addresses =>
      cases parsed
      exact network_located member
  | addresses iptype addr1 addr2 mask =>
      simp only [FactoryParse, map_eq_some_iff] at parsed
      obtain ⟨mask', decoded, rfl⟩ := parsed
      rw [mem_singleton.mp member]
      have masked : ∀ addr : Address,
          (addr.ApplyMask mask').ApplyMask mask' = addr.ApplyMask mask' := by
        simp only [Address.ApplyMask, BitVec.and_assoc, BitVec.and_self, implies_true]
      cases mask with
      | none =>
          cases decoded
          exact ⟨0, Nat.zero_le _, rfl, masked _, masked _⟩
      | some cidr =>
          obtain ⟨host, bound, rfl⟩ := Address.exists_prefixMask decoded
          exact ⟨host, bound, rfl, masked _, masked _⟩

end AclIpData

namespace ACLIP

open AclIpData

/-- The insertion ends at an entry that compares equal, and the new one is deleted. -/
def Dropped (data : IPSplay) (q : AclIpData) : Prop := (data.splay (NetworkCompare q)).1 = 0

variable {data : IPSplay} {q : AclIpData}

theorem toList_insert_of_dropped (dropped : Dropped data q) :
    (insert data q).toList = data.toList := by
  by_cases ne : data = .null
  · subst ne
    simp [Dropped, SplayNode.splay, SplayNode.splayLoop] at dropped
  · obtain ⟨left, root, right, result, values, -⟩ := SplayNode.splay_spec (NetworkCompare q) ne
    rw [Dropped, result] at dropped
    dsimp only at dropped
    rw [insert, SplayNode.insert, result, ← values]
    simp [dropped]

variable {lists : List (List AclIpData)} {tokens : List Token}

/-- `parse` inserts the entries of all tokens one by one. -/
theorem parse_eq (parsed : tokens.mapM FactoryParse = some lists) (data : IPSplay) :
    parse data tokens = some (lists.flatten.foldl insert data) := by
  induction tokens generalizing lists data with
  | nil =>
      cases parsed
      rfl
  | cons token tokens ih =>
      simp only [mapM_cons, bind_eq_bind, Option.pure_def, bind_eq_some_iff, some.injEq] at parsed
      obtain ⟨entries, first, rest, later, rfl⟩ := parsed
      simp only [parse, foldlM_cons, first, map_some, bind_eq_bind,
        bind_some, flatten_cons, foldl_append]
      exact ih later _

theorem exists_token (parsed : tokens.mapM FactoryParse = some lists) (member : q ∈ lists.flatten) :
    ∃ token entries, FactoryParse token = some entries ∧ q ∈ entries := by
  induction tokens generalizing lists with
  | nil =>
      cases parsed
      simp at member
  | cons token tokens ih =>
      simp only [mapM_cons, bind_eq_bind, Option.pure_def, bind_eq_some_iff, some.injEq] at parsed
      obtain ⟨entries, first, rest, later, rfl⟩ := parsed
      rw [flatten_cons, mem_append] at member
      rcases member with here | elsewhere
      · exact ⟨token, entries, first, here⟩
      · exact ih later elsewhere

/-- The tree holds nothing but inserted entries. -/
theorem mem_foldl_insert {entries : List AclIpData} {x : AclIpData}
    (member : x ∈ (entries.foldl insert data).toList) : x ∈ entries ∨ x ∈ data.toList := by
  induction entries generalizing data with
  | nil => exact .inr member
  | cons q entries ih =>
      rcases ih member with later | earlier
      · exact .inl (mem_cons_of_mem _ later)
      · rcases SplayNode.mem_insert earlier with rfl | old
        · exact .inl mem_cons_self
        · exact .inr old

variable {host host' : ℕ} {t : AclIpData}

/-- Colliding entries have a common address. -/
theorem common_of_collision (network : Network q host) (network' : Network t host')
    (collision : NetworkCompare q t = 0) (right : ¬ q.Mistaken t) (right' : ¬ t.Mistaken q) :
    ∃ ip, q.Covers ip ∧ t.Covers ip := by
  unfold NetworkCompare at collision
  split at collision
  · exact ⟨q.addr1, network.covers_addr1, covers_of_compare collision right⟩
  · rename_i equal
    exact ⟨t.addr1, covers_of_compare (not_not.mp equal) right', network'.covers_addr1⟩

/-- Of two entries with a common address one has all those of the other, unless each has some on
its own side. -/
theorem nested_of_common (network : Network q host) (network' : Network t host')
    (common : ∃ ip, q.Covers ip ∧ t.Covers ip) (apart : ¬ q.Straddles t ∧ ¬ t.Straddles q) :
    (∀ ip, q.Covers ip → t.Covers ip) ∨ ∀ ip, t.Covers ip → q.Covers ip := by
  obtain ⟨ip, in_q, in_t⟩ := common
  simp only [network.covers_iff, network'.covers_iff] at in_q in_t ⊢
  unfold Straddles at apart
  by_cases inner : t.first ≤ q.first ∧ q.last ≤ t.last
  · exact .inl fun other inside => by omega
  · exact .inr fun other inside => by omega

/-- The address 10.0.0.1. -/
def host10 : IpEntry := .address .AF_INET 0xffff0a000001#128

/-- The network 10.0.0.0/8. -/
def network10 : IpEntry := .block .AF_INET 0xffff0a000000#128 ⟨8, Nat.le_of_ble_eq_true rfl⟩

/-- The range from 10.0.0.1 to 10.0.0.5. -/
def low10 : IpEntry := .range .AF_INET 0xffff0a000001#128 0xffff0a000005#128

/-- The range from 10.0.0.3 to 10.0.0.9. -/
def high10 : IpEntry := .range .AF_INET 0xffff0a000003#128 0xffff0a000009#128

/-- The range from 2001:db8::1 to 2001:db8::5. -/
def range6 : IpEntry :=
  .range .AF_INET6 0x20010db8000000000000000000000001#128 0x20010db8000000000000000000000005#128

/-- The address 255.255.255.255. -/
def broadcast : IpEntry := .address .AF_INET 0xffffffffffff#128

end ACLIP

end Squid
