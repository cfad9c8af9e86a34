import Pos3ql.SqlError

/-!
# Partition bounds

A partitioned table routes a row by the bounds of its partitions: a range of key tuples, a list of
key values, or a remainder of the key's hash. A partition is attached only if its bound overlaps
none of the bounds that are there.

* `KeyDatum`, `compareDatums`: values of the key columns.
* `PartitionBound`, `resolvePartitionBound`, `partitionBoundsOverlap`, `validatePartitionBound`.
* `rowHash`, `boundMatches`, **`partitionBoundMatches`**: routing.
* `TableCall`, `run`: the partitions of one table over time.

Values of other types than the integers are kept abstract: what routing needs of them is the order
in which `compare_datums` puts the values of one column (`KeyType`). Bounds arrive with their
expressions evaluated. The siblings of a partition are the list of the table's partitions; whether
their rows fit is not part of this module.

Source: `sql/exec/mod.rs` (`resolve_partition_bound`, `partition_bounds_overlap`,
`validate_partition_bound`), `storage/mod.rs` (`partition_bound_matches`), `sql/eval/operators.rs`.
-/

namespace Pos3ql

/-! ## Key values -/

/-- The type of a key column that is not an integer: its values in their order, and its name. -/
class KeyType (K : Type) extends LinearOrder K where
  typeName : String

/-- A value of a key column. Source: `Datum`. -/
inductive KeyDatum (K : Type)
  | null
  | int2 (v : Int16)
  | int4 (v : Int32)
  | int8 (v : Int64)
  | other (v : K)
  deriving DecidableEq

namespace KeyDatum

variable {K : Type} [KeyType K]

/-- Source: `type_name_of`. -/
def typeNameOf : KeyDatum K → String
  | .null => "unknown"
  | .int2 _ => "smallint"
  | .int4 _ => "integer"
  | .int8 _ => "bigint"
  | .other _ => KeyType.typeName K

/-- Source: `as_i64`. -/
def asI64 : KeyDatum K → Option ℤ
  | .int2 v => some v.toInt
  | .int4 v => some v.toInt
  | .int8 v => some v.toInt
  | _ => none

/-- Source: `compare_datums`, with its `operator does not exist`. -/
def compareDatums (l r : KeyDatum K) : Except SqlError Ordering :=
  match l, r with
  | .other a, .other b => .ok (cmp a b)
  | l, r =>
    match l.asI64, r.asI64 with
    | some a, some b => .ok (cmp a b)
    | _, _ =>
        .error ⟨.undefinedFunction, s!"operator does not exist: {l.typeNameOf} = {r.typeNameOf}"⟩

end KeyDatum

/-! ## Bounds -/

/-- Source: `PartitionBoundValue`. -/
inductive PartitionBoundValue (K : Type)
  | minValue
  | value (v : KeyDatum K)
  | maxValue
  deriving DecidableEq

/-- Source: `PartitionStrategy`. -/
inductive PartitionStrategy
  | range
  | list
  | hash
  deriving DecidableEq, Repr

/-- Source: `PartitionBound`; the arrays up to their lengths. -/
inductive PartitionBound (K : Type)
  | default
  | range (lower upper : List (PartitionBoundValue K))
  | list (values : List (KeyDatum K))
  | hash (modulus remainder : UInt32)
  deriving DecidableEq

/-- A bound as it is written, with its constants evaluated. Source: `ast::PartitionBound`. -/
inductive WrittenBound (K : Type)
  | default
  | range (lower upper : List (PartitionBoundValue K))
  | list (values : List (KeyDatum K))
  | hash (modulus remainder : KeyDatum K)

/-- Source: `PartitionScheme`. -/
structure PartitionScheme where
  strategy : PartitionStrategy
  keys : List ℕ

/-- Source: `MAX_PARTITION_LIST_VALUES`. -/
def maxPartitionListValues : ℕ := 64

section Bounds

variable {K : Type} [KeyType K]

/-- Source: `compare_partition_bound_tuples`, one position. -/
def compareBoundValues : PartitionBoundValue K → PartitionBoundValue K → Except SqlError Ordering
  | .minValue, .minValue | .maxValue, .maxValue => .ok .eq
  | .minValue, _ | _, .maxValue => .ok .lt
  | .maxValue, _ | _, .minValue => .ok .gt
  | .value l, .value r => l.compareDatums r

/-- Source: `compare_partition_bound_tuples`. -/
def comparePartitionBoundTuples :
    List (PartitionBoundValue K) → List (PartitionBoundValue K) → Except SqlError Ordering
  | l :: ls, r :: rs => do
      let ordering ← compareBoundValues l r
      if ordering ≠ .eq then .ok ordering else comparePartitionBoundTuples ls rs
  | _, _ => .ok .eq

/-- The error of an unusable bound. -/
def invalidBound (message : String) : SqlError := ⟨.invalidObjectDefinition, message⟩

/-- Source: `resolve_partition_bound`, hash bounds. -/
def resolveHash (modulus remainder : KeyDatum K) : Except SqlError (PartitionBound K) :=
  match modulus, remainder with
  | .int4 modulus, .int4 remainder =>
    if modulus ≤ 0 ∨ remainder < 0 ∨ modulus ≤ remainder then
      .error (invalidBound "invalid hash partition modulus or remainder")
    else .ok (.hash modulus.toUInt32 remainder.toUInt32)
  | _, _ => .error (invalidBound "hash partition modulus and remainder must be integers")

/-- Source: `resolve_partition_bound`. -/
def resolvePartitionBound (scheme : PartitionScheme) :
    WrittenBound K → Except SqlError (PartitionBound K)
  | .default => .ok .default
  | .range lower upper =>
    if scheme.strategy ≠ .range then
      .error (invalidBound "partition bound does not match partition strategy")
    else if lower.length ≠ scheme.keys.length ∨ upper.length ≠ scheme.keys.length then
      .error (invalidBound "partition bound must specify every partition key column")
    else do
      let ordering ← comparePartitionBoundTuples lower upper
      if ordering ≠ .lt then .error (invalidBound "empty range bound specified for partition")
      else .ok (.range lower upper)
  | .list values =>
    if scheme.strategy ≠ .list then
      .error (invalidBound "partition bound does not match partition strategy")
    else if maxPartitionListValues < values.length then
      .error
        ⟨.programLimitExceeded, s!"LIST partition bound exceeds {maxPartitionListValues} values"⟩
    else .ok (.list values)
  | .hash modulus remainder =>
    if scheme.strategy ≠ .hash then
      .error (invalidBound "partition bound does not match partition strategy")
    else resolveHash modulus remainder

/-- Whether some value of a list is among others. Source: `partition_bounds_overlap`, the inner loop
for lists. -/
def listContains (left : KeyDatum K) : List (KeyDatum K) → Except SqlError Bool
  | [] => .ok false
  | right :: rest => do
      let ordering ← left.compareDatums right
      if ordering = .eq then .ok true else listContains left rest

/-- Source: `partition_bounds_overlap`, lists. -/
def listsOverlap (right : List (KeyDatum K)) : List (KeyDatum K) → Except SqlError Bool
  | [] => .ok false
  | left :: rest => do
      let found ← listContains left right
      if found = true then .ok true else listsOverlap right rest

/-- Source: `partition_bounds_overlap`. -/
def partitionBoundsOverlap : PartitionBound K → PartitionBound K → Except SqlError Bool
  | .default, .default => .ok true
  | .default, _ | _, .default => .ok false
  | .hash lm lr, .hash rm rr =>
    let common := min lm rm
    .ok (lr % common == rr % common)
  | .list lv, .list rv => listsOverlap rv lv
  | .range ll lu, .range rl ru =>
    if ll.length ≠ rl.length then .ok false
    else do
      let first ← comparePartitionBoundTuples ll ru
      if first ≠ .lt then .ok false
      else do
        let second ← comparePartitionBoundTuples rl lu
        .ok (second == .lt)
  | _, _ => .ok false

end Bounds

/-! ## The hash of a row -/

/-- Source: `rotate_left`. -/
def rotateLeft (x n : UInt32) : UInt32 := (x <<< n) ||| (x >>> (32 - n))

/-- Source: `mix`. -/
def mix (a b c : UInt32) : UInt32 × UInt32 × UInt32 :=
  let a := a - c
  let a := a ^^^ rotateLeft c 4
  let c := c + b
  let b := b - a
  let b := b ^^^ rotateLeft a 6
  let a := a + c
  let c := c - b
  let c := c ^^^ rotateLeft b 8
  let b := b + a
  let a := a - c
  let a := a ^^^ rotateLeft c 16
  let c := c + b
  let b := b - a
  let b := b ^^^ rotateLeft a 19
  let a := a + c
  let c := c - b
  let c := c ^^^ rotateLeft b 4
  let b := b + a
  (a, b, c)

/-- Source: `postgres_hash_uint32_extended`. -/
def postgresHashUint32Extended (value : UInt32) : UInt64 :=
  let initial : UInt32 := 0x9e3779b9 + 4 + 3923095
  let seed : UInt64 := 0x7a5b22367996dcfd
  let (a, b, c) := mix (initial + (seed >>> 32).toUInt32) (initial + seed.toUInt32) initial
  let a := a + value
  let c := c ^^^ b
  let c := c - rotateLeft b 14
  let a := a ^^^ c
  let a := a - rotateLeft c 11
  let b := b ^^^ a
  let b := b - rotateLeft a 25
  let c := c ^^^ b
  let c := c - rotateLeft b 16
  let a := a ^^^ c
  let a := a - rotateLeft c 4
  let b := b ^^^ a
  let b := b - rotateLeft a 14
  let c := c ^^^ b
  let c := c - rotateLeft b 24
  (b.toUInt64 <<< 32) ||| c.toUInt64

section Routing

variable {K : Type} [KeyType K]

/-- Source: `partition_bound_matches`, `part`. -/
def hashPart : KeyDatum K → Except SqlError UInt64
  | .null => .ok 0
  | .int2 v => .ok (postgresHashUint32Extended v.toInt32.toUInt32)
  | .int4 v => .ok (postgresHashUint32Extended v.toUInt32)
  | .int8 v =>
    let low := v.toUInt64.toUInt32
    let high := (v >>> 32).toUInt64.toUInt32
    .ok (postgresHashUint32Extended (low ^^^ (if 0 ≤ v then high else ~~~high)))
  | .other _ => .error ⟨.internalError, "non-integer HASH partition key reached routing"⟩

/-- Source: `partition_bound_matches`, one round of the loop over the key. -/
def combineHash (hash part : UInt64) : UInt64 :=
  hash ^^^
    (part + (0x49a0f4dd15e5a8e3 : UInt64) + (hash <<< (54 : UInt64)) + (hash >>> (7 : UInt64)))

/-- Source: `partition_bound_matches`, the loop over the key of a hash bound. -/
def rowHash (key : List (KeyDatum K)) : Except SqlError UInt64 :=
  key.foldlM (fun hash value => (hashPart value).map (combineHash hash)) 0

/-- The key of a row. Source: `partition_bound_matches`, `key`. -/
def keyOf (scheme : PartitionScheme) (values : List (KeyDatum K)) :
    Except SqlError (List (KeyDatum K)) :=
  scheme.keys.mapM fun i =>
    match values[i]? with
    | some value => .ok value
    | none => .error ⟨.internalError, "partition key is outside row width"⟩

/-- A part of a key against a bound. Source: `partition_bound_matches`, `ordering`. -/
def compareBound (value : KeyDatum K) : PartitionBoundValue K → Except SqlError Ordering
  | .minValue => .ok .gt
  | .maxValue => .ok .lt
  | .value bound => value.compareDatums bound

/-- A key against a tuple of bounds; nothing when a part that is looked at is NULL. Source:
`partition_bound_matches`, `compare`. -/
def compareKey :
    List (KeyDatum K) → List (PartitionBoundValue K) → Except SqlError (Option Ordering)
  | value :: key, bound :: tuple =>
    if value = .null then .ok none
    else do
      let ordering ← compareBound value bound
      if ordering ≠ .eq then .ok (some ordering) else compareKey key tuple
  | _, _ => .ok (some .eq)

/-- Source: `partition_bound_matches`, ranges. -/
def rangeMatches (lower upper : List (PartitionBoundValue K)) (key : List (KeyDatum K)) :
    Except SqlError Bool := do
  match ← compareKey key lower with
  | none => .ok false
  | some lowerOrdering =>
    match ← compareKey key upper with
    | none => .ok false
    | some upperOrdering => .ok (lowerOrdering != .lt && upperOrdering == .lt)

/-- Source: `partition_bound_matches`, `is_ok_and(Ordering::is_eq)`. -/
def equalTo (value v : KeyDatum K) : Bool :=
  match value.compareDatums v with
  | .ok ordering => ordering == .eq
  | .error _ => false

/-- Source: `partition_bound_matches`, lists. -/
def listMatches (values : List (KeyDatum K)) (key : List (KeyDatum K)) : Except SqlError Bool :=
  match key.head? with
  | none => .error ⟨.internalError, "partition key is outside row width"⟩
  | some value =>
    if value = .null then .ok (values.contains .null) else .ok (values.any (equalTo value))

/-- Source: `partition_bound_matches`, hashes. -/
def hashMatches (modulus remainder : UInt32) (hash : Except SqlError UInt64) :
    Except SqlError Bool :=
  hash.map fun hash => hash % modulus.toUInt64 == remainder.toUInt64

/-- A key and its hash against a bound. Source: `partition_bound_matches`. -/
def boundMatches (strategy : PartitionStrategy) (bound : PartitionBound K)
    (hash : Except SqlError UInt64) (key : List (KeyDatum K)) :
    Except SqlError Bool :=
  match strategy, bound with
  | .range, .range lower upper => rangeMatches lower upper key
  | .list, .list values => listMatches values key
  | .hash, .hash modulus remainder => hashMatches modulus remainder hash
  | _, _ => .ok false

/-- Source: `partition_bound_matches`. -/
def partitionBoundMatches (scheme : PartitionScheme) (bound : PartitionBound K)
    (values : List (KeyDatum K)) : Except SqlError Bool := do
  let key ← keyOf scheme values
  boundMatches scheme.strategy bound (rowHash key) key

end Routing

/-! ## The partitions of a table -/

/-- A partition of the table. Source: `PartitionAttachment`. -/
structure Partition (K : Type) where
  name : String
  bound : PartitionBound K

/-- What is done to the partitions of a table. Source: `CREATE TABLE … PARTITION OF`, `ATTACH
PARTITION`, `DETACH PARTITION`. -/
inductive TableCall (K : Type)
  | attach (name : String) (bound : WrittenBound K)
  | detach (name : String)

namespace PartitionScheme

variable {K : Type} [KeyType K]

/-- Source: `validate_partition_bound`. -/
def validatePartitionBound (parent : String) (candidate : PartitionBound K) :
    List (Partition K) → Except SqlError Unit
  | [] => .ok ()
  | sibling :: siblings => do
      let overlap ← partitionBoundsOverlap candidate sibling.bound
      if overlap = true then .error (invalidBound
        s!"partition \"{parent}\" would overlap partition \"{sibling.name}\"")
      else validatePartitionBound parent candidate siblings

/-- One statement. -/
def perform (scheme : PartitionScheme) (parent : String) (partitions : List (Partition K)) :
    TableCall K → Except SqlError (List (Partition K))
  | .attach name written => do
      let bound ← resolvePartitionBound scheme written
      validatePartitionBound parent bound partitions
      .ok (partitions ++ [⟨name, bound⟩])
  | .detach name => .ok (partitions.filter fun p => p.name != name)

/-- **The partitions after some statements**; one that fails changes nothing. -/
def run (scheme : PartitionScheme) (parent : String) (calls : List (TableCall K)) :
    List (Partition K) :=
  calls.foldl
    (fun partitions call => (scheme.perform parent partitions call).toOption.getD partitions) []

end PartitionScheme

end Pos3ql
