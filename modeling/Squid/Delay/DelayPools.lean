import Squid.Delay.DelayBucket
import Squid.Ip.Address
import Mathlib.Data.Fintype.EquivFin
import Mathlib.Data.Fintype.Prod

/-!
# Maps of delay buckets

`VectorMap` finds a bucket by a key of one byte.  Its positions are bytes too, and the position of
a key that is not in the map is its size, which does not fit in a byte once the map is full; but
then no key is missing.
-/

namespace Squid

open CRuntime List

/-- Conversion to `unsigned char`. -/
def toByte (number : ℕ) : Fin 256 := Fin.ofNat 256 number

/-- `VectorMap`, of `IND_MAP_SZ` entries, with bytes for positions. -/
structure VectorMap (Key Value : Type) where
  key_map : Fin 256 → Key
  values : Fin 256 → Value
  nextMapPosition : ℕ
  /-- The map holds no more than it has room for. -/
  position_le : nextMapPosition ≤ 256

namespace VectorMap

variable {Key Value : Type}

/-- `VectorMap::size`. -/
def size (map : VectorMap Key Value) : ℕ := map.nextMapPosition

/-- `VectorMap::indexUsed`. -/
def indexUsed (map : VectorMap Key Value) (index : Fin 256) : Prop := index.val < map.size

instance (map : VectorMap Key Value) (index : Fin 256) : Decidable (map.indexUsed index) :=
  inferInstanceAs (Decidable (_ < _))

section Search

variable [DecidableEq Key]

/-- The loop of `findKeyIndex` from an index on, `left` steps before the size; a failed assertion
is `none`. -/
def findFrom (map : VectorMap Key Value) (key : Key) : ℕ → ℕ → Option (Fin 256)
  | 0, _ => some (toByte map.size)
  | left + 1, index =>
      if ¬ map.indexUsed (toByte index) then none
      else if map.key_map (toByte index) = key then some (toByte index)
      else map.findFrom key left (index + 1)

/-- `VectorMap::findKeyIndex`. -/
def findKeyIndex (map : VectorMap Key Value) (key : Key) : Option (Fin 256) :=
  map.findFrom key map.size 0

/-- `VectorMap::insert`, where a failed assertion is `none`. -/
def insert (map : VectorMap Key Value) (key : Key) : Option (Fin 256 × VectorMap Key Value) :=
  match map.findKeyIndex key with
  | none => none
  | some index =>
      if unused : map.indexUsed index then none
      else
        some (index, {
          key_map := Function.update map.key_map index key
          values := map.values
          nextMapPosition := map.nextMapPosition + 1
          position_le := Nat.lt_of_le_of_lt (Nat.not_lt.1 unused) index.isLt })

end Search

/-- The value at a position is replaced. -/
def setValue (map : VectorMap Key Value) (index : Fin 256) (value : Value) :
    VectorMap Key Value :=
  { map with values := Function.update map.values index value }

@[simp]
theorem setValue_indexUsed (map : VectorMap Key Value) (index : Fin 256) (value : Value)
    (i : Fin 256) : (map.setValue index value).indexUsed i ↔ map.indexUsed i := Iff.rfl

theorem setValue_self (map : VectorMap Key Value) (index : Fin 256) (value : Value) :
    (map.setValue index value).values index = value := by
  simp [setValue]

variable {index : Fin 256}

theorem setValue_of_ne (map : VectorMap Key Value) {i : Fin 256} (value : Value)
    (other : i ≠ index) : (map.setValue index value).values i = map.values i := by
  simp [setValue, other]

/-- The keys of the positions in use are distinct. -/
def Distinct (map : VectorMap Key Value) : Prop :=
  ∀ i j, map.indexUsed i → map.indexUsed j → map.key_map i = map.key_map j → i = j

/-- What `insert` makes of a map. -/
structure Added (map : VectorMap Key Value) (key : Key) (index : Fin 256)
    (later : VectorMap Key Value) : Prop where
  /-- The position was free. -/
  fresh : ¬ map.indexUsed index
  /-- It is the only one that is taken. -/
  used_iff : ∀ i, later.indexUsed i ↔ map.indexUsed i ∨ i = index
  /-- It gets the key. -/
  key_eq : later.key_map index = key
  /-- The other keys stay. -/
  keys_eq : ∀ i, map.indexUsed i → later.key_map i = map.key_map i
  /-- No value is touched. -/
  values_eq : later.values = map.values

/-- The positions in use stay in use, with their keys. -/
def Keeps (map later : VectorMap Key Value) : Prop :=
  ∀ i, map.indexUsed i → later.indexUsed i ∧ later.key_map i = map.key_map i

theorem Added.keeps {map later : VectorMap Key Value} {key : Key}
    (added : Added map key index later) : map.Keeps later := fun i used =>
  ⟨(added.used_iff i).2 (.inl used), added.keys_eq i used⟩

theorem toByte_val {n : ℕ} (bound : n < 256) : (toByte n).val = n :=
  Nat.mod_eq_of_lt bound

/-- The loop stops at the key, or finds that it is not in the map. -/
theorem findFrom_spec [DecidableEq Key] (map : VectorMap Key Value) (key : Key) {left index : ℕ}
    (total : index + left = map.size)
    (missed : ∀ i : Fin 256, i.val < index → map.key_map i ≠ key) :
    (∃ i, map.findFrom key left index = some i ∧ map.indexUsed i ∧ map.key_map i = key) ∨
      map.findFrom key left index = some (toByte map.size) ∧
        ∀ i, map.indexUsed i → map.key_map i ≠ key := by
  induction left generalizing index with
  | zero => exact .inr ⟨rfl, fun i used => missed i (by rw [indexUsed] at used; omega)⟩
  | succ left ih =>
      have below : index < map.size := by omega
      have value : (toByte index).val = index :=
        toByte_val (Nat.lt_of_lt_of_le below map.position_le)
      have used : map.indexUsed (toByte index) := by rwa [indexUsed, value]
      rw [findFrom, if_neg (not_not.2 used)]
      split
      next found => exact .inl ⟨_, rfl, used, found⟩
      next other =>
        refine ih (by omega) fun i smaller => ?_
        rcases Nat.lt_succ_iff_lt_or_eq.1 smaller with earlier | here
        · exact missed i earlier
        · have same : i = toByte index := Fin.ext (here.trans value.symm)
          exact same ▸ other

variable {map : VectorMap (Fin 256) Value}

/-- A map of bytes that lacks one has room for it. -/
theorem size_lt_of_missing (distinct : map.Distinct) {key : Fin 256}
    (missing : ∀ i, map.indexUsed i → map.key_map i ≠ key) : map.size < 256 := by
  by_contra full
  have used : ∀ i, map.indexUsed i := fun i => Nat.lt_of_lt_of_le i.isLt (Nat.not_lt.1 full)
  have injective : Function.Injective map.key_map := fun i j same =>
    distinct i j (used i) (used j) same
  obtain ⟨i, found⟩ := Finite.injective_iff_surjective.1 injective key
  exact missing i (used i) found

/-- A key is found, or it can be added. -/
theorem find_or_insert (distinct : map.Distinct) (key : Fin 256) :
    ∃ index, map.findKeyIndex key = some index ∧
      (map.indexUsed index ∧ map.key_map index = key ∨
        ∃ later, map.insert key = some (index, later) ∧ Added map key index later ∧
          ∀ i, map.indexUsed i → map.key_map i ≠ key) := by
  rcases map.findFrom_spec key (Nat.zero_add _) (by simp) with
    ⟨i, found, used, same⟩ | ⟨found, missing⟩
  · exact ⟨i, found, .inl ⟨used, same⟩⟩
  · have room := size_lt_of_missing distinct missing
    have value : (toByte map.size).val = map.size := toByte_val room
    have fresh : ¬ map.indexUsed (toByte map.size) := by rw [indexUsed, value]; omega
    have located : map.findKeyIndex key = some (toByte map.size) := found
    have inserted : ∃ later, map.insert key = some (toByte map.size, later) ∧
        later.key_map = Function.update map.key_map (toByte map.size) key ∧
        later.values = map.values ∧ later.size = map.size + 1 := by
      simp only [insert, located, dif_neg fresh]
      exact ⟨_, rfl, rfl, rfl, rfl⟩
    obtain ⟨later, added, keys, values, larger⟩ := inserted
    refine ⟨_, located, .inr ⟨later, added, ⟨fresh, fun i => ?_, ?_, fun i used => ?_, values⟩,
      missing⟩⟩
    · rw [indexUsed, indexUsed, larger, Fin.ext_iff, value]
      omega
    · rw [keys, Function.update_self]
    · rw [keys, Function.update_of_ne]
      rintro rfl
      exact fresh used

theorem Added.distinct {later : VectorMap (Fin 256) Value} {key : Fin 256}
    (added : Added map key index later) (distinct : map.Distinct)
    (missing : ∀ i, map.indexUsed i → map.key_map i ≠ key) : later.Distinct := by
  have old : ∀ i, map.indexUsed i → later.key_map i ≠ later.key_map index := fun i used => by
    rw [added.keys_eq i used, added.key_eq]
    exact missing i used
  intro i j i_used j_used same
  rcases (added.used_iff i).1 i_used with i_old | rfl
  · rcases (added.used_iff j).1 j_used with j_old | rfl
    · rw [added.keys_eq i i_old, added.keys_eq j j_old] at same
      exact distinct i j i_old j_old same
    · exact absurd same (old i i_old)
  · rcases (added.used_iff j).1 j_used with j_old | rfl
    · exact absurd same.symm (old j j_old)
    · rfl

end VectorMap

/-! ## The pools -/

/-- `DelayBucket::init`, where `share` is the part of the limit that a bucket starts with. -/
def DelayBucket.init (share : ℤ → ℤ) (rate : DelaySpec) : DelayBucket :=
  ⟨int32 (share rate.max_bytes), int32_mem _⟩

/-- A bucket of a map. -/
structure PoolBucket where
  /-- The bucket. -/
  bucket : DelayBucket
  /-- How often its level has been initialised. -/
  inits : ℕ := 0

/-- `init` for a bucket of a map. -/
def PoolBucket.init (share : ℤ → ℤ) (rate : DelaySpec) (bucket : PoolBucket) : PoolBucket :=
  ⟨DelayBucket.init share rate, bucket.inits + 1⟩

/-- The buckets of a pool by one byte of an address. -/
abbrev Buckets := VectorMap (Fin 256) PoolBucket

/-- Just the buckets in use have been initialised, and once. -/
def VectorMap.Initialised (map : Buckets) : Prop :=
  ∀ i, (map.values i).inits = if map.indexUsed i then 1 else 0

/-- `VectorPool`, of one of its classes. -/
structure VectorPool where
  /-- `spec`. -/
  rate : DelaySpec
  buckets : Buckets

/-- The classes of a `VectorPool`. -/
inductive VectorClass
  | individualPool
  | classCNetPool

/-- `IndividualPool::makeKey`. -/
def IndividualPool.makeKey (src_addr : Ip.Address) : ℕ :=
  if ¬ src_addr.IsIPv4 then 1 else src_addr.GetInAddr % 256

/-- `ClassCNetPool::makeKey`. -/
def ClassCNetPool.makeKey (src_addr : Ip.Address) : ℕ :=
  if ¬ src_addr.IsIPv4 then 1 else src_addr.GetInAddr / 2 ^ 8 % 256

/-- `makeKey` of a class. -/
def VectorClass.makeKey : VectorClass → Ip.Address → ℕ
  | individualPool => IndividualPool.makeKey
  | classCNetPool => ClassCNetPool.makeKey

namespace VectorPool

/-- `VectorPool::keyAllocated`. -/
def keyAllocated (pool : VectorPool) (key : Fin 256) : Option Bool :=
  (pool.buckets.findKeyIndex key).map fun index => pool.buckets.indexUsed index

/-- `VectorPool::id`: the position of the bucket, where a `NullDelayId` is `none`; a failed
assertion is the outer `none`. -/
def id (share : ℤ → ℤ) (kind : VectorClass) (pool : VectorPool) (src_addr : Ip.Address) :
    Option (Option (Fin 256) × VectorPool) :=
  if pool.rate.restore_bps = -1 then some (none, pool)
  else if ¬ src_addr.IsIPv4 then some (none, pool)
  else do
    let key := toByte (kind.makeKey src_addr)
    if ← pool.keyAllocated key then
      let index ← pool.buckets.findKeyIndex key
      return (some index, pool)
    let (resultIndex, buckets) ← pool.buckets.insert key
    let value := (buckets.values resultIndex).init share pool.rate
    return (some resultIndex, { pool with buckets := buckets.setValue resultIndex value })

end VectorPool

/-- `ClassCBucket`, without `net`, which nothing reads. -/
structure ClassCBucket where
  individuals : Buckets

namespace ClassCBucket

/-- `ClassCBucket::individualUsed`. -/
def individualUsed (bucket : ClassCBucket) (index : Fin 256) : Bool :=
  bucket.individuals.indexUsed index

/-- `ClassCBucket::findHostMapPosition`. -/
def findHostMapPosition (bucket : ClassCBucket) (host : Fin 256) : Option (Fin 256) :=
  bucket.individuals.findKeyIndex host

/-- `ClassCBucket::individualAllocated`. -/
def individualAllocated (bucket : ClassCBucket) (host : Fin 256) : Option Bool :=
  (bucket.findHostMapPosition host).map bucket.individualUsed

/-- `ClassCBucket::initHostIndex`. -/
def initHostIndex (share : ℤ → ℤ) (bucket : ClassCBucket) (rate : DelaySpec)
    (index host : Fin 256) : Option ClassCBucket := do
  if bucket.individualUsed index then none
  let (newIndex, individuals) ← bucket.individuals.insert host
  -- give the bucket a default value
  let value := (individuals.values newIndex).init share rate
  return ⟨individuals.setValue newIndex value⟩

/-- `ClassCBucket::hostPosition`. -/
def hostPosition (share : ℤ → ℤ) (bucket : ClassCBucket) (rate : DelaySpec) (host : Fin 256) :
    Option (Fin 256 × ClassCBucket) := do
  if ← bucket.individualAllocated host then
    let index ← bucket.findHostMapPosition host
    return (index, bucket)
  let index ← bucket.findHostMapPosition host
  if bucket.individualUsed index then none
  let result ← bucket.findHostMapPosition host
  let later ← bucket.initHostIndex share rate result host
  return (result, later)

end ClassCBucket

structure ClassCHostPool where
  /-- `spec`. -/
  rate : DelaySpec
  buckets : VectorMap (Fin 256) ClassCBucket

namespace ClassCHostPool

/-- `ClassCHostPool::keyAllocated`. -/
def keyAllocated (pool : ClassCHostPool) (key : Fin 256) : Option Bool :=
  (pool.buckets.findKeyIndex key).map fun index => pool.buckets.indexUsed index

/-- `ClassCHostPool::makeHostKey`. -/
def makeHostKey (src_addr : Ip.Address) : ℕ :=
  if ¬ src_addr.IsIPv4 then 1 else src_addr.GetInAddr % 256

/-- `ClassCHostPool::makeKey`. -/
def makeKey (src_addr : Ip.Address) : ℕ :=
  if ¬ src_addr.IsIPv4 then 1 else src_addr.GetInAddr / 2 ^ 8 % 256

/-- `ClassCHostPool::id`: the positions of the network and of the host. -/
def id (share : ℤ → ℤ) (pool : ClassCHostPool) (src_addr : Ip.Address) :
    Option (Option (Fin 256 × Fin 256) × ClassCHostPool) :=
  if pool.rate.restore_bps = -1 then some (none, pool)
  else if ¬ src_addr.IsIPv4 then some (none, pool)
  else do
    let key := toByte (makeKey src_addr)
    let host := toByte (makeHostKey src_addr)
    let (netIndex, buckets) ←
      if ← pool.keyAllocated key then
        (pool.buckets.findKeyIndex key).map fun netIndex => (netIndex, pool.buckets)
      else pool.buckets.insert key
    let (hostIndex, net) ← (buckets.values netIndex).hostPosition share pool.rate host
    return (some (netIndex, hostIndex), { pool with buckets := buckets.setValue netIndex net })

end ClassCHostPool
/-! ## One call -/

/-- A key has a bucket of its own in what has become of a map. -/
structure VectorMap.Allotted (map : Buckets) (key index : Fin 256) (later : Buckets) : Prop where
  /-- The keys are distinct. -/
  distinct : later.Distinct
  /-- Each bucket has been initialised once. -/
  initialised : later.Initialised
  /-- The other keys have kept their buckets. -/
  keeps : map.Keeps later
  /-- The position is in use. -/
  used : later.indexUsed index
  /-- It is that of the key. -/
  key_eq : later.key_map index = key

variable {index key : Fin 256} {map : Buckets}

theorem VectorMap.Initialised.init {later : Buckets} (initialised : map.Initialised)
    (added : Added map key index later) (share : ℤ → ℤ) (rate : DelaySpec) :
    (later.setValue index ((later.values index).init share rate)).Initialised := by
  intro i
  have before := initialised i
  by_cases here : i = index
  · subst here
    rw [if_neg added.fresh] at before
    rw [VectorMap.setValue_self, PoolBucket.init, added.values_eq, before]
    simp [added.used_iff i]
  · rw [VectorMap.setValue_of_ne _ _ here, added.values_eq, before]
    simp [added.used_iff i, here]

theorem VectorMap.Allotted.of_added {later : Buckets} (distinct : map.Distinct)
    (initialised : map.Initialised) (added : Added map key index later)
    (missing : ∀ i, map.indexUsed i → map.key_map i ≠ key) (share : ℤ → ℤ) (rate : DelaySpec) :
    map.Allotted key index (later.setValue index ((later.values index).init share rate)) where
  distinct := added.distinct distinct missing
  initialised := initialised.init added share rate
  keeps := added.keeps
  used := (added.used_iff index).2 (.inr rfl)
  key_eq := added.key_eq

theorem VectorMap.Allotted.of_found (distinct : map.Distinct) (initialised : map.Initialised)
    (used : map.indexUsed index) (same : map.key_map index = key) : map.Allotted key index map :=
  ⟨distinct, initialised, fun _ used => ⟨used, rfl⟩, used, same⟩

/-- A host gets its bucket, without a failed assertion. -/
theorem ClassCBucket.hostPosition_spec (share : ℤ → ℤ) {bucket : ClassCBucket}
    (distinct : bucket.individuals.Distinct) (initialised : bucket.individuals.Initialised)
    (rate : DelaySpec) (host : Fin 256) :
    ∃ index later, bucket.hostPosition share rate host = some (index, later) ∧
      bucket.individuals.Allotted host index later.individuals := by
  obtain ⟨index, located, ⟨used, same⟩ | ⟨later, inserted, added, missing⟩⟩ :=
    VectorMap.find_or_insert distinct host
  · have allocated : bucket.individualAllocated host = some true := by
      simp [individualAllocated, findHostMapPosition, located, individualUsed, used]
    refine ⟨index, bucket, ?_, .of_found distinct initialised used same⟩
    simp [hostPosition, allocated, findHostMapPosition, located]
  · have unused : bucket.individualUsed index = false := by
      simpa [individualUsed] using added.fresh
    have allocated : bucket.individualAllocated host = some false := by
      simp [individualAllocated, findHostMapPosition, located, unused]
    have opened : bucket.initHostIndex share rate index host =
        some ⟨later.setValue index ((later.values index).init share rate)⟩ := by
      simp [initHostIndex, unused, inserted]
    refine ⟨index, ⟨later.setValue index ((later.values index).init share rate)⟩, ?_,
      .of_added distinct initialised added missing share rate⟩
    simp [hostPosition, allocated, findHostMapPosition, located, unused, opened]

/-- Whether addresses get buckets of the pool. -/
def Served (rate : DelaySpec) (src_addr : Ip.Address) : Prop :=
  rate.restore_bps ≠ -1 ∧ src_addr.IsIPv4 = true

/-- What holds of a pool between calls. -/
structure VectorPool.Good (pool : VectorPool) : Prop where
  /-- The keys are distinct. -/
  distinct : pool.buckets.Distinct
  /-- Each bucket has been initialised once. -/
  initialised : pool.buckets.Initialised

theorem VectorPool.id_spec (share : ℤ → ℤ) (kind : VectorClass) {pool : VectorPool}
    (good : pool.Good) (src_addr : Ip.Address) :
    (¬ Served pool.rate src_addr ∧ pool.id share kind src_addr = some (none, pool)) ∨
      Served pool.rate src_addr ∧ ∃ index buckets,
        pool.id share kind src_addr = some (some index, { pool with buckets }) ∧
        pool.buckets.Allotted (toByte (kind.makeKey src_addr)) index buckets := by
  by_cases disabled : pool.rate.restore_bps = -1
  · exact .inl ⟨fun served => served.1 disabled, if_pos disabled⟩
  by_cases ipv4 : src_addr.IsIPv4
  · refine .inr ⟨⟨disabled, ipv4⟩, ?_⟩
    obtain ⟨index, located, ⟨used, same⟩ | ⟨later, inserted, added, missing⟩⟩ :=
      VectorMap.find_or_insert good.distinct (toByte (kind.makeKey src_addr))
    · have allocated : pool.keyAllocated (toByte (kind.makeKey src_addr)) = some true := by
        simp [keyAllocated, located, used]
      refine ⟨index, pool.buckets, ?_, .of_found good.distinct good.initialised used same⟩
      simp [id, disabled, ipv4, allocated, located]
    · have allocated : pool.keyAllocated (toByte (kind.makeKey src_addr)) = some false := by
        simp [keyAllocated, located, added.fresh]
      refine ⟨index, later.setValue index ((later.values index).init share pool.rate), ?_,
        .of_added good.distinct good.initialised added missing share pool.rate⟩
      simp [id, disabled, ipv4, allocated, inserted]
  · refine .inl ⟨fun served => ipv4 served.2, ?_⟩
    simp [id, disabled, ipv4]

/-- What holds of a pool of networks between calls. -/
structure ClassCHostPool.Good (pool : ClassCHostPool) : Prop where
  /-- The networks are distinct. -/
  distinct : pool.buckets.Distinct
  /-- The hosts of a network are distinct. -/
  hosts : ∀ net, (pool.buckets.values net).individuals.Distinct
  /-- Each bucket has been initialised once. -/
  initialised : ∀ net, (pool.buckets.values net).individuals.Initialised

/-- A network and a host of an address. -/
structure ClassCHostPool.Holds (pool : ClassCHostPool) (src_addr : Ip.Address)
    (net host : Fin 256) : Prop where
  /-- The network is in use. -/
  net_used : pool.buckets.indexUsed net
  /-- It is that of the address. -/
  net_key : pool.buckets.key_map net = toByte (makeKey src_addr)
  /-- The host is in use. -/
  host_used : (pool.buckets.values net).individuals.indexUsed host
  /-- It is that of the address. -/
  host_key : (pool.buckets.values net).individuals.key_map host = toByte (makeHostKey src_addr)

/-- The networks stay in use with their keys, and so do their hosts. -/
def ClassCHostPool.Keeps (pool later : ClassCHostPool) : Prop :=
  pool.buckets.Keeps later.buckets ∧
    ∀ net, (pool.buckets.values net).individuals.Keeps (later.buckets.values net).individuals

variable {pool : ClassCHostPool}

theorem ClassCHostPool.Holds.kept {later : ClassCHostPool} {src_addr : Ip.Address}
    {net host : Fin 256} (holds : pool.Holds src_addr net host) (keeps : pool.Keeps later) :
    later.Holds src_addr net host where
  net_used := (keeps.1 net holds.net_used).1
  net_key := (keeps.1 net holds.net_used).2.trans holds.net_key
  host_used := (keeps.2 net host holds.host_used).1
  host_key := (keeps.2 net host holds.host_used).2.trans holds.host_key

theorem ClassCHostPool.netIndex_spec (good : pool.Good) (key : Fin 256) :
    ∃ net buckets allocated, pool.keyAllocated key = some allocated ∧
      (if allocated then (pool.buckets.findKeyIndex key).map fun net => (net, pool.buckets)
        else pool.buckets.insert key) = some (net, buckets) ∧
      buckets.Distinct ∧ pool.buckets.Keeps buckets ∧ buckets.values = pool.buckets.values ∧
      buckets.indexUsed net ∧ buckets.key_map net = key := by
  obtain ⟨net, located, ⟨used, same⟩ | ⟨later, inserted, added, missing⟩⟩ :=
    VectorMap.find_or_insert good.distinct key
  · refine ⟨net, pool.buckets, true, ?_, ?_, good.distinct, fun _ used => ⟨used, rfl⟩, rfl, used,
      same⟩
    · simp [keyAllocated, located, used]
    · simp [located]
  · refine ⟨net, later, false, ?_, ?_, added.distinct good.distinct missing, added.keeps,
      added.values_eq, (added.used_iff net).2 (.inr rfl), added.key_eq⟩
    · simp [keyAllocated, located, added.fresh]
    · simp [inserted]

theorem ClassCHostPool.id_spec (share : ℤ → ℤ) (good : pool.Good) (src_addr : Ip.Address) :
    (¬ Served pool.rate src_addr ∧ pool.id share src_addr = some (none, pool)) ∨
      Served pool.rate src_addr ∧ ∃ net host later,
        pool.id share src_addr = some (some (net, host), later) ∧ later.rate = pool.rate ∧
        later.Good ∧ pool.Keeps later ∧ later.Holds src_addr net host := by
  by_cases disabled : pool.rate.restore_bps = -1
  · exact .inl ⟨fun served => served.1 disabled, if_pos disabled⟩
  by_cases ipv4 : src_addr.IsIPv4
  · refine .inr ⟨⟨disabled, ipv4⟩, ?_⟩
    obtain ⟨net, buckets, allocated, tested, found, distinct, keeps, values, used, key_eq⟩ :=
      netIndex_spec good (toByte (makeKey src_addr))
    obtain ⟨host, bucket, position, allotted⟩ := ClassCBucket.hostPosition_spec share
      (good.hosts net) (good.initialised net) pool.rate (toByte (makeHostKey src_addr))
    rw [← values] at position
    have hosts : ∀ i, ((buckets.setValue net bucket).values i).individuals =
        if i = net then bucket.individuals else (pool.buckets.values i).individuals := by
      intro i
      split
      next here => rw [here, VectorMap.setValue_self]
      next other => rw [VectorMap.setValue_of_ne _ _ other, values]
    refine ⟨net, host, { pool with buckets := buckets.setValue net bucket }, ?_, rfl, ?_, ?_, ?_⟩
    · cases allocated with
      | true =>
          rw [if_pos rfl] at found
          simp [id, disabled, ipv4, tested, found, position]
      | false =>
          rw [if_neg Bool.false_ne_true] at found
          simp [id, disabled, ipv4, tested, found, position]
    · refine ⟨distinct, fun i => ?_, fun i => ?_⟩
      · rw [hosts]
        split
        · exact allotted.distinct
        · exact good.hosts i
      · rw [hosts]
        split
        · exact allotted.initialised
        · exact good.initialised i
    · refine ⟨keeps, fun i => ?_⟩
      rw [hosts]
      split
      next here => exact here ▸ allotted.keeps
      next => exact fun _ used => ⟨used, rfl⟩
    · have here := (hosts net).trans (if_pos rfl)
      exact ⟨used, key_eq, here ▸ allotted.used, here ▸ allotted.key_eq⟩
  · refine .inl ⟨fun served => ipv4 served.2, ?_⟩
    simp [id, disabled, ipv4]

/-! ## Runs -/

/-- Two pools, with the results of the calls so far. -/
structure PoolCalls where
  /-- A pool of single hosts, or of networks. -/
  vector : VectorPool
  /-- A pool of hosts in networks. -/
  classC : ClassCHostPool
  /-- The results of `VectorPool::id`. -/
  vectorIds : List (Ip.Address × Option (Fin 256)) := []
  /-- The results of `ClassCHostPool::id`. -/
  classCIds : List (Ip.Address × Option (Fin 256 × Fin 256)) := []

namespace PoolCalls

/-- A call of one of the pools. -/
inductive Call
  | vector (src_addr : Ip.Address)
  | classC (src_addr : Ip.Address)

/-- What a call leaves behind, unless an assertion fails. -/
def next (share : ℤ → ℤ) (kind : VectorClass) (calls : PoolCalls) : Call → Option PoolCalls
  | .vector src_addr =>
      (calls.vector.id share kind src_addr).map fun result =>
        { calls with
          vector := result.2
          vectorIds := calls.vectorIds ++ [(src_addr, result.1)] }
  | .classC src_addr =>
      (calls.classC.id share src_addr).map fun result =>
        { calls with
          classC := result.2
          classCIds := calls.classCIds ++ [(src_addr, result.1)] }

/-- Pools just made: what is in the arrays does not matter. -/
def start (vectorRate classCRate : DelaySpec) (keys : Fin 256 → Fin 256)
    (levels : Fin 256 → DelayBucket) (hostKeys : Fin 256 → Fin 256 → Fin 256)
    (hostLevels : Fin 256 → Fin 256 → DelayBucket) : PoolCalls where
  vector := ⟨vectorRate, ⟨keys, fun i => ⟨levels i, 0⟩, 0, by decide⟩⟩
  classC := ⟨classCRate, ⟨keys, fun i =>
    ⟨⟨hostKeys i, fun j => ⟨hostLevels i j, 0⟩, 0, by decide⟩⟩, 0, by decide⟩⟩

/-- What holds between calls of pools with the given rates. -/
structure Good (kind : VectorClass) (vectorRate classCRate : DelaySpec) (calls : PoolCalls) :
    Prop where
  /-- The rate stays. -/
  vector_rate : calls.vector.rate = vectorRate
  /-- The rate stays. -/
  classC_rate : calls.classC.rate = classCRate
  /-- The pool is in order. -/
  vector : calls.vector.Good
  /-- The pool is in order. -/
  classC : calls.classC.Good
  /-- Addresses are served as the rate says. -/
  vector_served : ∀ src_addr result, (src_addr, result) ∈ calls.vectorIds →
    (result.isSome ↔ Served vectorRate src_addr)
  /-- A bucket is in use under the key of the address. -/
  vector_ids : ∀ src_addr index, (src_addr, some index) ∈ calls.vectorIds →
    calls.vector.buckets.indexUsed index ∧
      calls.vector.buckets.key_map index = toByte (kind.makeKey src_addr)
  /-- Addresses are served as the rate says. -/
  classC_served : ∀ src_addr result, (src_addr, result) ∈ calls.classCIds →
    (result.isSome ↔ Served classCRate src_addr)
  /-- A bucket is in use under the keys of the address. -/
  classC_ids : ∀ src_addr net host, (src_addr, some (net, host)) ∈ calls.classCIds →
    calls.classC.Holds src_addr net host

theorem good_start (kind : VectorClass) (vectorRate classCRate : DelaySpec)
    (keys : Fin 256 → Fin 256) (levels : Fin 256 → DelayBucket)
    (hostKeys : Fin 256 → Fin 256 → Fin 256) (hostLevels : Fin 256 → Fin 256 → DelayBucket) :
    Good kind vectorRate classCRate
      (start vectorRate classCRate keys levels hostKeys hostLevels) where
  vector_rate := rfl
  classC_rate := rfl
  vector := ⟨fun i _ used => absurd used (Nat.not_lt_zero i), fun i =>
    (if_neg (Nat.not_lt_zero i)).symm⟩
  classC := ⟨fun i _ used => absurd used (Nat.not_lt_zero i),
    fun _ i _ used => absurd used (Nat.not_lt_zero i), fun _ i => (if_neg (Nat.not_lt_zero i)).symm⟩
  vector_served := by simp [start]
  vector_ids := by simp [start]
  classC_served := by simp [start]
  classC_ids := by simp [start]

/-- No assertion fails, whatever the call. -/
theorem progress (share : ℤ → ℤ) {kind : VectorClass} {vectorRate classCRate : DelaySpec}
    {calls : PoolCalls} (good : Good kind vectorRate classCRate calls) (call : Call) :
    ∃ later, next share kind calls call = some later ∧
      Good kind vectorRate classCRate later := by
  cases call with
  | vector src_addr =>
      rcases calls.vector.id_spec share kind good.vector src_addr with
        ⟨notServed, result⟩ | ⟨served, index, buckets, result, allotted⟩
      · refine ⟨_, by rw [next, result, Option.map_some], ?_⟩
        refine { good with vector_served := fun src result member => ?_, vector_ids := ?_ }
        · rcases mem_append.1 member with old | new
          · exact good.vector_served src result old
          · cases mem_singleton.1 new
            simp [← good.vector_rate, notServed]
        · intro src index member
          exact good.vector_ids src index (by simpa using member)
      · refine ⟨_, by rw [next, result, Option.map_some], ?_⟩
        refine { good with
          vector_rate := good.vector_rate
          vector := ⟨allotted.distinct, allotted.initialised⟩
          vector_served := fun src result member => ?_
          vector_ids := fun src position member => ?_ }
        · rcases mem_append.1 member with old | new
          · exact good.vector_served src result old
          · cases mem_singleton.1 new
            simp [← good.vector_rate, served]
        · rcases mem_append.1 member with old | new
          · obtain ⟨used, key_eq⟩ := good.vector_ids src position old
            obtain ⟨still, same⟩ := allotted.keeps position used
            exact ⟨still, same.trans key_eq⟩
          · cases mem_singleton.1 new
            exact ⟨allotted.used, allotted.key_eq⟩
  | classC src_addr =>
      rcases calls.classC.id_spec share good.classC src_addr with
        ⟨notServed, result⟩ | ⟨served, net, host, pool, result, rate, kept, keeps, holds⟩
      · refine ⟨_, by rw [next, result, Option.map_some], ?_⟩
        refine { good with classC_served := fun src result member => ?_, classC_ids := ?_ }
        · rcases mem_append.1 member with old | new
          · exact good.classC_served src result old
          · cases mem_singleton.1 new
            simp [← good.classC_rate, notServed]
        · intro src net host member
          exact good.classC_ids src net host (by simpa using member)
      · refine ⟨_, by rw [next, result, Option.map_some], ?_⟩
        refine { good with
          classC_rate := rate.trans good.classC_rate
          classC := kept
          classC_served := fun src result member => ?_
          classC_ids := fun src i j member => ?_ }
        · rcases mem_append.1 member with old | new
          · exact good.classC_served src result old
          · cases mem_singleton.1 new
            simp [← good.classC_rate, served]
        · rcases mem_append.1 member with old | new
          · exact (good.classC_ids src i j old).kept keeps
          · cases mem_singleton.1 new
            exact holds

theorem toByte_inj {first second : ℕ} (first_lt : first < 256) (second_lt : second < 256) :
    toByte first = toByte second ↔ first = second := by
  rw [Fin.ext_iff, VectorMap.toByte_val first_lt, VectorMap.toByte_val second_lt]

theorem lowByte_lt (src_addr : Ip.Address) :
    (if ¬ src_addr.IsIPv4 then 1 else src_addr.GetInAddr % 256) < 256 := by
  split <;> omega

theorem nextByte_lt (src_addr : Ip.Address) :
    (if ¬ src_addr.IsIPv4 then 1 else src_addr.GetInAddr / 2 ^ 8 % 256) < 256 := by
  split <;> omega

theorem vector_key_lt (kind : VectorClass) (src_addr : Ip.Address) :
    kind.makeKey src_addr < 256 := by
  cases kind with
  | individualPool => exact lowByte_lt src_addr
  | classCNetPool => exact nextByte_lt src_addr

/-- Buckets of an array of distinct keys are the same just when the keys are. -/
theorem index_eq_iff {Value : Type} {map : VectorMap (Fin 256) Value} (distinct : map.Distinct)
    {i j : Fin 256} {first second : ℕ} (first_lt : first < 256) (second_lt : second < 256)
    (i_used : map.indexUsed i) (j_used : map.indexUsed j) (i_key : map.key_map i = toByte first)
    (j_key : map.key_map j = toByte second) : i = j ↔ first = second := by
  constructor
  · rintro rfl
    exact (toByte_inj first_lt second_lt).1 (i_key.symm.trans j_key)
  · rintro rfl
    exact distinct i j i_used j_used (i_key.trans j_key.symm)

/-- Whatever the calls, no assertion fails, addresses get the same bucket just when they have the
same keys, keys in use are distinct, and the buckets in use have been initialised once. -/
theorem bucket_iff_key (share : ℤ → ℤ) (kind : VectorClass) (vectorRate classCRate : DelaySpec)
    (keys : Fin 256 → Fin 256) (levels : Fin 256 → DelayBucket)
    (hostKeys : Fin 256 → Fin 256 → Fin 256) (hostLevels : Fin 256 → Fin 256 → DelayBucket)
    (calls : List Call) :
    ∃ after, LabelledRun.exec (next share kind)
        (start vectorRate classCRate keys levels hostKeys hostLevels) calls = some after ∧
      (∀ src_addr result, (src_addr, result) ∈ after.vectorIds →
        (result.isSome ↔ Served vectorRate src_addr)) ∧
      (∀ src_addr result, (src_addr, result) ∈ after.classCIds →
        (result.isSome ↔ Served classCRate src_addr)) ∧
      (∀ first second i j, (first, some i) ∈ after.vectorIds → (second, some j) ∈ after.vectorIds →
        (i = j ↔ kind.makeKey first = kind.makeKey second)) ∧
      (∀ first second i j, (first, some i) ∈ after.classCIds → (second, some j) ∈ after.classCIds →
        (i = j ↔ ClassCHostPool.makeKey first = ClassCHostPool.makeKey second ∧
          ClassCHostPool.makeHostKey first = ClassCHostPool.makeHostKey second)) ∧
      after.vector.buckets.Distinct ∧ after.vector.buckets.Initialised ∧
      after.classC.buckets.Distinct ∧
      ∀ net, (after.classC.buckets.values net).individuals.Distinct ∧
        (after.classC.buckets.values net).individuals.Initialised := by
  obtain ⟨after, run, good⟩ := LabelledRun.exec_of_progress (progress share)
    (good_start kind vectorRate classCRate keys levels hostKeys hostLevels) calls
  refine ⟨after, run, good.vector_served, good.classC_served, ?_, ?_, good.vector.distinct,
    good.vector.initialised, good.classC.distinct, fun net =>
      ⟨good.classC.hosts net, good.classC.initialised net⟩⟩
  · intro first second i j i_result j_result
    obtain ⟨i_used, i_key⟩ := good.vector_ids first i i_result
    obtain ⟨j_used, j_key⟩ := good.vector_ids second j j_result
    exact index_eq_iff good.vector.distinct (vector_key_lt kind first)
      (vector_key_lt kind second) i_used j_used i_key j_key
  · rintro first second ⟨net, host⟩ ⟨otherNet, otherHost⟩ i_result j_result
    have i_holds := good.classC_ids first net host i_result
    have j_holds := good.classC_ids second otherNet otherHost j_result
    have nets := index_eq_iff good.classC.distinct (nextByte_lt first) (nextByte_lt second)
      i_holds.net_used j_holds.net_used i_holds.net_key j_holds.net_key
    rw [Prod.mk.injEq, nets]
    refine and_congr_right fun same_net => ?_
    obtain rfl := nets.2 same_net
    exact index_eq_iff (good.classC.hosts net) (lowByte_lt first) (lowByte_lt second)
      i_holds.host_used j_holds.host_used i_holds.host_key j_holds.host_key

end PoolCalls
end Squid
