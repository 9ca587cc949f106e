import Squid.Acl.Ip

/-!
# Searching address lists

Entries without common addresses are intervals, and `parse` keeps them in order.  A search masks
the address with the mask of each entry on its way, which does not change on which side of the
entry the address is; it therefore finds the entry that contains the address if there is one.
-/

namespace Squid
namespace ACLIP

open Ip AclIpData IpEntry List

/-- The entries in increasing order. -/
def Ordered (entries : List IpEntry) : Prop := entries.Pairwise fun e f => e.last < f.first

/-- The tree holds the entries, in increasing order. -/
structure Holds (data : IPSplay) (entries : List IpEntry) : Prop where
  values : data.toList = entries.map stored
  proper : ∀ e ∈ entries, e.Proper
  ordered : Ordered entries

variable {e : IpEntry} {ip : Address}

theorem compare_client (proper : e.Proper) (plain : ip.IsSpecial = false) :
    aclIpAddrNetworkCompare { addr1 := ip } e.stored = position e.first e.last ip.toNat :=
  aclIpAddrNetworkCompare_stored proper plain

variable {entries : List IpEntry}

/-- Searching for an address goes with the order of the entries. -/
theorem consistent_search (proper : ∀ e ∈ entries, e.Proper) (ordered : Ordered entries)
    (plain : ip.IsSpecial = false) :
    SplayNode.Consistent (aclIpAddrNetworkCompare { addr1 := ip }) (entries.map stored) := by
  rw [SplayNode.Consistent, pairwise_map]
  refine List.Pairwise.imp_of_mem ?_ ordered
  intro e f member_e member_f before
  have upwards_e := first_le_last (proper e member_e)
  have upwards_f := first_le_last (proper f member_f)
  rw [compare_client (proper e member_e) plain, compare_client (proper f member_f) plain]
  unfold position
  constructor
  · split <;> split <;> omega
  · split <;> split <;> omega

variable {data : IPSplay}

/-- A search finds an entry that contains the address. -/
theorem matchClient_iff (holds : Holds data entries) (plain : ip.IsSpecial = false) :
    (matchClient data ip).1 = true ↔ ∃ e ∈ entries, e.Contains ip := by
  have consistent := consistent_search holds.proper holds.ordered plain
  rw [← holds.values] at consistent
  have found := SplayNode.splay_eq_zero_iff consistent
  rw [holds.values] at found
  simp only [matchClient, beq_iff_eq, found, List.mem_map, exists_exists_and_eq_and]
  refine exists_congr fun e => and_congr_right fun member => ?_
  rw [compare_client (holds.proper e member) plain, contains_iff]
  unfold position
  split
  · omega
  · split <;> omega

/-- A search leaves the entries in order. -/
theorem Holds.afterMatches (holds : Holds data entries) (clients : List Address) :
    Holds (afterMatches data clients) entries := by
  induction clients generalizing data with
  | nil => exact holds
  | cons client clients ih =>
      refine ih ⟨?_, holds.proper, holds.ordered⟩
      rw [← holds.values]
      exact SplayNode.toList_splay _ data

/-- An entry that has no address in common with those of the tree takes its place in the order. -/
theorem Holds.insert (holds : Holds data entries) (proper : e.Proper)
    (disjoint : ∀ f ∈ entries, e.last < f.first ∨ f.last < e.first) :
    ∃ entries', Holds (insert data e.stored) entries' ∧ entries'.Perm (e :: entries) := by
  have upwards := first_le_last proper
  have compare : ∀ f ∈ entries,
      NetworkCompare e.stored f.stored = if e.first < f.first then -1 else 1 := fun f member =>
    NetworkCompare_stored proper (holds.proper f member) (disjoint f member)
  have consistent : SplayNode.Consistent (NetworkCompare e.stored) data.toList := by
    rw [holds.values, SplayNode.Consistent, pairwise_map]
    refine List.Pairwise.imp_of_mem ?_ holds.ordered
    intro f g member_f member_g before
    have upwards_f := first_le_last (holds.proper f member_f)
    rw [compare f member_f, compare g member_g]
    constructor
    · split <;> split <;> omega
    · split <;> split <;> omega
  have absent : ∀ x ∈ data.toList, NetworkCompare e.stored x ≠ 0 := by
    rw [holds.values]
    rintro x member
    obtain ⟨f, member_f, rfl⟩ := List.mem_map.mp member
    rw [compare f member_f]
    split <;> decide
  obtain ⟨left, right, inserted, values, before, after⟩ :=
    SplayNode.insert_spec e.stored consistent absent
  rw [holds.values] at values
  obtain ⟨front, back, rfl, left_values, right_values⟩ := map_eq_append_iff.mp values.symm
  have member_front : ∀ f ∈ front, f.last < e.first := by
    intro f member
    have member' : f ∈ front ++ back := mem_append_left _ member
    have positive := before f.stored (by rw [← left_values]; exact List.mem_map_of_mem member)
    have upwards_f := first_le_last (holds.proper f member')
    rw [compare f member'] at positive
    have := disjoint f member'
    split at positive <;> omega
  have member_back : ∀ f ∈ back, e.last < f.first := by
    intro f member
    have member' : f ∈ front ++ back := mem_append_right _ member
    have negative := after f.stored (by rw [← right_values]; exact List.mem_map_of_mem member)
    have upwards_f := first_le_last (holds.proper f member')
    rw [compare f member'] at negative
    have := disjoint f member'
    split at negative <;> omega
  refine ⟨front ++ e :: back, ⟨?_, ?_, ?_⟩, perm_middle⟩
  · rw [ACLIP.insert, inserted, SplayNode.toList_node, ← left_values, ← right_values]
    simp
  · intro f member
    rcases mem_append.mp member with earlier | later
    · exact holds.proper f (mem_append_left _ earlier)
    · rcases mem_cons.mp later with rfl | later
      · exact proper
      · exact holds.proper f (mem_append_right _ later)
  · obtain ⟨ordered_front, ordered_back, across⟩ := pairwise_append.mp holds.ordered
    refine pairwise_append.mpr
      ⟨ordered_front, pairwise_cons.mpr ⟨member_back, ordered_back⟩, ?_⟩
    intro f earlier g later
    rcases mem_cons.mp later with rfl | later
    · exact member_front f earlier
    · exact across f earlier g later

/-- No address lies in both entries. -/
def Disjoint (e f : IpEntry) : Prop := ∀ ip, ¬ (e.Contains ip ∧ f.Contains ip)

theorem Disjoint.ends {f : IpEntry} (disjoint : Disjoint e f) (proper_e : e.Proper)
    (proper_f : f.Proper) : e.last < f.first ∨ f.last < e.first := by
  have upwards_e := first_le_last proper_e
  have upwards_f := first_le_last proper_f
  by_contra overlap
  push Not at overlap
  -- the larger of the two first addresses lies in both
  by_cases order : e.first ≤ f.first
  · refine disjoint f.stored.addr1 ⟨(contains_iff _ _).2 ?_, (contains_iff _ _).2 ?_⟩
    · exact ⟨order, overlap.1⟩
    · exact ⟨le_rfl, upwards_f⟩
  · refine disjoint e.stored.addr1 ⟨(contains_iff _ _).2 ?_, (contains_iff _ _).2 ?_⟩
    · exact ⟨le_rfl, upwards_e⟩
    · exact ⟨(not_le.1 order).le, overlap.2⟩

theorem parse_cons (data : IPSplay) (proper : e.Proper) (tokens : List Token) :
    parse data (e.token :: tokens) = parse (insert data e.stored) tokens := by
  simp [parse, FactoryParse_token proper]

/-- `parse` keeps all of a list of disjoint entries. -/
theorem Holds.parse {more : List IpEntry} (holds : Holds data entries)
    (proper : ∀ e ∈ more, e.Proper) (disjoint : (entries ++ more).Pairwise Disjoint) :
    ∃ data' entries', parse data (more.map token) = some data' ∧ Holds data' entries' ∧
      entries'.Perm (entries ++ more) := by
  induction more generalizing data entries with
  | nil => exact ⟨data, entries, rfl, holds, by simp⟩
  | cons e more ih =>
      have proper_e := proper e mem_cons_self
      have apart : ∀ f ∈ entries, e.last < f.first ∨ f.last < e.first := by
        intro f member
        have disjoint_f := (pairwise_append.mp disjoint).2.2 f member e mem_cons_self
        exact (disjoint_f.ends (holds.proper f member) proper_e).symm
      obtain ⟨entries', holds', perm⟩ := holds.insert proper_e apart
      have symmetric : ∀ {f g : IpEntry}, Disjoint f g → Disjoint g f :=
        fun disjoint ip both => disjoint ip both.symm
      have moved : (entries' ++ more).Perm (entries ++ e :: more) :=
        (perm.append_right more).trans perm_middle.symm
      obtain ⟨data'', entries'', parsed, holds'', perm'⟩ :=
        ih holds' (fun f member => proper f (mem_cons_of_mem _ member))
          ((moved.pairwise_iff symmetric).2 disjoint)
      refine ⟨data'', entries'', ?_, holds'', perm'.trans moved⟩
      rw [map_cons, parse_cons data proper_e]
      exact parsed

/-- An address list without overlaps matches exactly the addresses of its entries, in whatever order
these are given and whatever has been looked up before. -/
theorem match_iff {entries : List IpEntry} (proper : ∀ e ∈ entries, e.Proper)
    (disjoint : entries.Pairwise Disjoint) :
    ∃ data, parse .null (entries.map token) = some data ∧
      ∀ (clients : List Address) (ip : Address), ip.IsSpecial = false →
        ((matchClient (afterMatches data clients) ip).1 = true ↔ ∃ e ∈ entries, e.Contains ip) := by
  have empty : Holds .null [] := ⟨rfl, by simp, List.Pairwise.nil⟩
  obtain ⟨data, entries', parsed, holds, perm⟩ := empty.parse proper (by simpa using disjoint)
  refine ⟨data, parsed, fun clients ip plain => ?_⟩
  rw [matchClient_iff (holds.afterMatches clients) plain]
  simp only [perm.mem_iff, nil_append]

theorem disjoint_of_ends {f : IpEntry} (ends : e.last < f.first ∨ f.last < e.first) :
    Disjoint e f := by
  rintro ip ⟨in_e, in_f⟩
  rw [contains_iff] at in_e in_f
  omega

/-- A block, a range and a single address. -/
def mixed : List IpEntry :=
  [.range .AF_INET 0xffff0a000005#128 0xffff0a000009#128,
    .block .AF_INET6 (0x20010db8#128 <<< 96) ⟨32, by decide⟩, .address .AF_INET 0xffff0a000001#128]

theorem match_iff_mixed :
    ∃ data, parse .null (mixed.map token) = some data ∧
      (matchClient (afterMatches data [0xffff0a000001#128, 7#128])
        (0x20010db80000ffff#128 <<< 64)).1 = true := by
  have proper : ∀ e ∈ mixed, e.Proper := by
    simp only [mixed, forall_mem_cons, not_mem_nil, false_imp_iff, implies_true, and_true]
    exact ⟨by decide, by decide, by decide⟩
  have disjoint : mixed.Pairwise Disjoint := by
    simp only [mixed, pairwise_cons, forall_mem_cons, not_mem_nil, false_imp_iff,
      implies_true, and_true, List.Pairwise.nil]
    exact ⟨⟨disjoint_of_ends (by decide), disjoint_of_ends (by decide)⟩,
      disjoint_of_ends (by decide)⟩
  obtain ⟨data, parsed, found⟩ := match_iff proper disjoint
  refine ⟨data, parsed, (found _ _ (by decide)).2 ⟨_, mem_cons_of_mem _ mem_cons_self,
    ?_⟩⟩
  decide

end ACLIP
end Squid
