/-
# The bucket map

A metric keeps one bucket for each set of attributes.  The map answers a caller's
attribute list in three ways: a strictly sorted list is looked up as it stands in
the canonical table, any other list is looked up in the alias table by a
fingerprint that ignores order, and a list found in neither is sorted,
deduplicated and entered in both.

Attributes are read only through equality, order and hashing, so their type is a
parameter with a linear order.  A bucket behind an `Arc` is the address of a cell;
a drained bucket stays in memory for whoever still holds its address.  The build
modelled is the one without debug assertions.
-/

import Mathlib.Data.List.Sort
import Mathlib.Data.List.Destutter
import Ohnotel.Atomic.Basic
import Ohnotel.Foundation.HashTable

namespace Ohnotel

open Foundation Atomic

/-- The order-independent fingerprint of an attribute list. -/
structure AttrFingerprint where
  xor : UInt64
  sum : UInt64
  len : Nat
  deriving DecidableEq

/-- What the map asks of a hasher: the hash of one attribute and the hash of a
fingerprint. -/
structure BuildHasher (K : Type) where
  hashOne : K → UInt64
  hashFingerprint : AttrFingerprint → UInt64

namespace AttrFingerprint

variable {K : Type}

/-- Fold the hashes of the attributes with two commutative operations. -/
def commutativeHash (build : BuildHasher K) (attrs : List K) : AttrFingerprint :=
  let folded := attrs.foldl
    (fun acc kv => (acc.1 ^^^ build.hashOne kv, acc.2 + build.hashOne kv))
    ((0, 0) : UInt64 × UInt64)
  { xor := folded.1, sum := folded.2, len := attrs.length }

/-- The hash under which either table files a fingerprint. -/
def tableHash (fp : AttrFingerprint) (build : BuildHasher K) : UInt64 :=
  build.hashFingerprint fp

end AttrFingerprint

/-- The address of a bucket: what an `Arc` to it compares by. -/
abbrev BucketRef := Nat

/-- A non-canonical list as a caller wrote it, with its fingerprint. -/
structure AliasKey (K : Type) where
  rawFp : AttrFingerprint
  rawAttrs : List K

/-- An entry of the canonical table: the attributes, the bucket, and the aliases
the bucket can also be reached by. -/
structure CanonicalEntry (K : Type) where
  attrs : List K
  bucket : BucketRef
  aliases : List (AliasKey K)

/-- `entry.aliases.extend(alias)`. -/
def CanonicalEntry.extendAliases {K : Type} (aliasKey : Option (AliasKey K))
    (e : CanonicalEntry K) : CanonicalEntry K :=
  { e with aliases := e.aliases ++ aliasKey.toList }

/-- An entry of the alias table. -/
structure AliasEntry (K : Type) where
  key : AliasKey K
  bucket : BucketRef

namespace AliasKey

variable {K : Type}

def tableHash (key : AliasKey K) (build : BuildHasher K) : UInt64 :=
  key.rawFp.tableHash build

/-- `AliasKey::matches`: equal fingerprints are taken for equal keys.  Only a
build with debug assertions looks at the lists themselves. -/
def matchesRaw (key : AliasKey K) (rawFp : AttrFingerprint) (_attrs : List K) : Bool :=
  key.rawFp = rawFp

end AliasKey

/-- What `with_storage` fixes for the life of a map: its hasher, the value of a
new bucket, and the layout of its tables. -/
structure Config (K A : Type) where
  hasher : BuildHasher K
  initBucket : A
  layout : Layout

/-- The state of a map: its two tables, the bucket of the empty list with its
touched flag, the cardinality counter, and the memory the buckets live in. -/
structure BucketMap (K A : Type) where
  canonical : HashTable (CanonicalEntry K)
  aliases : HashTable (AliasEntry K)
  noAttrEntry : CanonicalEntry K
  noAttrTouched : Bool
  count : UInt64
  cells : BucketRef → A
  /-- The address the next allocated bucket gets. -/
  fresh : BucketRef

/-- What `get_or_create` has computed when it takes the canonical lock. -/
structure Prepared (K : Type) where
  normalized : List K
  hash : UInt64
  aliasKey : Option (AliasKey K)

/-- `sort_unstable` followed by `dedup`. -/
def normalize {K : Type} [LinearOrder K] (attrs : List K) : List K :=
  (attrs.insertionSort (· ≤ ·)).destutter (· ≠ ·)

namespace BucketMap

variable {K A T V : Type} (cfg : Config K A)

/-- `BucketMap::with_storage`. -/
def withStorage : BucketMap K A where
  canonical := HashTable.empty
  aliases := HashTable.empty
  noAttrEntry := { attrs := [], bucket := 0, aliases := [] }
  noAttrTouched := false
  count := 0
  cells _ := cfg.initBucket
  fresh := 1

/-- The hash a canonical list is filed under. -/
def canonHash (attrs : List K) : UInt64 :=
  (AttrFingerprint.commutativeHash cfg.hasher attrs).tableHash cfg.hasher

/-- The closure that rehashes a canonical entry. -/
def rehashCanon (entry : CanonicalEntry K) : UInt64 := canonHash cfg entry.attrs

/-- The closure that rehashes an alias entry. -/
def rehashDup (entry : AliasEntry K) : UInt64 := entry.key.tableHash cfg.hasher

/-- Write through the address of a bucket. -/
def modifyCell (m : BucketMap K A) (bucket : BucketRef) (f : A → A) : BucketMap K A :=
  { m with cells := Function.update m.cells bucket (f (m.cells bucket)) }

def lookupDup (m : BucketMap K A) (rawFp : AttrFingerprint) (attrs : List K) :
    Option BucketRef :=
  (m.aliases.find (rawFp.tableHash cfg.hasher) fun e => e.key.matchesRaw rawFp attrs).map
    AliasEntry.bucket

variable [LinearOrder K]

def lookupCanon (m : BucketMap K A) (hash : UInt64) (attrs : List K) : Option BucketRef :=
  (m.canonical.find hash fun e => e.attrs == attrs).map CanonicalEntry.bucket

/-- `BucketMap::get_bucket`.  A miss returns the fingerprint and its hash, which
the caller goes on to use. -/
def getBucket (m : BucketMap K A) (attrs : List K) :
    Except (AttrFingerprint × UInt64) BucketRef :=
  if attrs.isEmpty then .ok m.noAttrEntry.bucket
  else
    let rawFp := AttrFingerprint.commutativeHash cfg.hasher attrs
    let rawHash := rawFp.tableHash cfg.hasher
    let found :=
      if attrs.length = 1 then m.lookupCanon rawHash attrs
      -- `is_sorted` admits repetitions, so a sorted list may still be an alias.
      else if attrs.IsChain (· ≤ ·) then
        (m.lookupCanon rawHash attrs).or (m.lookupDup cfg rawFp attrs)
      else
        (m.lookupDup cfg rawFp attrs).or (m.lookupCanon rawHash attrs)
    match found with
    | some bucket => .ok bucket
    | none => .error (rawFp, rawHash)

/-- The part of `get_or_create` between its lookup and its first insertion. -/
def prepare (attrs : List K) (rawFp : AttrFingerprint) (rawHash : UInt64) : Prepared K :=
  let buf := normalize attrs
  { normalized := buf
    -- The raw hash is reused when deduplication removed nothing.
    hash := if buf.length ≠ rawFp.len then canonHash cfg buf else rawHash
    aliasKey := if buf ≠ attrs then some { rawFp := rawFp, rawAttrs := attrs } else none }

/-- `BucketMap::insert_canon`, under the canonical lock. -/
def insertCanon (m : BucketMap K A) (normalized : List K) (hash : UInt64)
    (aliasKey : Option (AliasKey K)) : BucketMap K A × BucketRef :=
  let table := m.canonical.reserve cfg.layout (rehashCanon cfg)
  let eq := fun entry : CanonicalEntry K => entry.attrs == normalized
  match table.find hash eq with
  | some entry =>
      -- A call that brings an alias did not find it, so it is not listed yet.
      ({ m with canonical := table.modify hash eq (CanonicalEntry.extendAliases aliasKey) },
        entry.bucket)
  | none =>
      ({ m with
          canonical := table.insert cfg.layout hash
            { attrs := normalized, bucket := m.fresh, aliases := aliasKey.toList }
          count := m.count + 1
          cells := Function.update m.cells m.fresh cfg.initBucket
          fresh := m.fresh + 1 },
        m.fresh)

omit [LinearOrder K] in
/-- `BucketMap::insert_dup`, under the alias lock. -/
def insertDup (m : BucketMap K A) (key : AliasKey K) (bucket : BucketRef) : BucketMap K A :=
  let hash := key.tableHash cfg.hasher
  let table := m.aliases.reserve cfg.layout (rehashDup cfg)
  match table.find hash fun e => e.key.matchesRaw key.rawFp key.rawAttrs with
  | some _ => { m with aliases := table }
  | none => { m with aliases := table.insert cfg.layout hash { key := key, bucket := bucket } }

/-- The two insertions of `get_or_create`. -/
def insertPrepared (m : BucketMap K A) (prepared : Prepared K) : BucketMap K A × BucketRef :=
  let inserted := m.insertCanon cfg prepared.normalized prepared.hash prepared.aliasKey
  match prepared.aliasKey with
  | some key => (inserted.1.insertDup cfg key inserted.2, inserted.2)
  | none => inserted

/-- `BucketMap::get_or_create`. -/
def getOrCreate (m : BucketMap K A) (attrs : List K) : BucketMap K A × BucketRef :=
  match m.getBucket cfg attrs with
  | .ok bucket => (m, bucket)
  | .error hashes => m.insertPrepared cfg (prepare cfg attrs hashes.1 hashes.2)

/-- Apply `f` to the bucket of a non-empty attribute list, creating it first if
need be. -/
def updateBucket (m : BucketMap K A) (attrs : List K) (f : A → A) : BucketMap K A :=
  let found := m.getOrCreate cfg attrs
  found.1.modifyCell found.2 f

section Record

variable [Record A T V]

/-- The branch of `add`, `sub` and `set` for the empty list. -/
def writeNoAttr (m : BucketMap K A) (f : A → A) : BucketMap K A :=
  { m.modifyCell m.noAttrEntry.bucket f with noAttrTouched := true }

def add (m : BucketMap K A) (value : T) (attrs : List K) : BucketMap K A :=
  if attrs.isEmpty then m.writeNoAttr fun cell => Record.add cell value
  else m.updateBucket cfg attrs fun cell => Record.add cell value

def sub (m : BucketMap K A) (value : T) (attrs : List K) : BucketMap K A :=
  if attrs.isEmpty then m.writeNoAttr fun cell => Record.sub cell value
  else m.updateBucket cfg attrs fun cell => Record.sub cell value

/-- Empty the bucket of the empty list and lower its flag. -/
def clearNoAttr (m : BucketMap K A) : BucketMap K A :=
  { m.modifyCell m.noAttrEntry.bucket Record.clear with noAttrTouched := false }

def clear (m : BucketMap K A) : BucketMap K A :=
  { m with canonical := HashTable.empty, aliases := HashTable.empty, count := 0 }.clearNoAttr

/-- What the closure that `visit_bucket` passes to `retain` has captured: the
callback's own state, the alias table, and the number of evictions. -/
structure Visit (σ K : Type) where
  state : σ
  aliases : HashTable (AliasEntry K)
  evicted : UInt64

/-- Take one alias of an evicted entry out of the alias table. -/
def dropAlias (aliases : HashTable (AliasEntry K)) (key : AliasKey K) :
    HashTable (AliasEntry K) :=
  aliases.remove (key.tableHash cfg.hasher) fun x => x.key.matchesRaw key.rawFp key.rawAttrs

/-- The closure that `visit_bucket` passes to `retain`.  The callback sees the
entry and, through its address, the cell. -/
def visitEntry {σ : Type} (cb : σ → CanonicalEntry K → A → Bool × σ) (cells : BucketRef → A)
    (visit : Visit σ K) (entry : CanonicalEntry K) : Bool × Visit σ K :=
  let answer := cb visit.state entry (cells entry.bucket)
  if answer.1 then (true, { visit with state := answer.2 })
  else
    (false,
      { state := answer.2
        aliases := entry.aliases.foldl (dropAlias cfg) visit.aliases
        evicted := visit.evicted + 1 })

/-- `BucketMap::visit_bucket` with a callback and the state it has captured. -/
def visitBucket {σ : Type} (m : BucketMap K A) (cb : σ → CanonicalEntry K → A → Bool × σ)
    (state : σ) : BucketMap K A × σ :=
  let kept := m.canonical.retain (visitEntry cfg cb m.cells)
    { state := state, aliases := m.aliases, evicted := 0 }
  let visited : BucketMap K A :=
    { m with
      canonical := kept.1
      aliases := kept.2.aliases
      count := if kept.2.evicted > 0 then m.count - kept.2.evicted else m.count }
  if m.noAttrTouched then
    let answer := cb kept.2.state m.noAttrEntry (m.cells m.noAttrEntry.bucket)
    (if answer.1 then visited else visited.clearNoAttr, answer.2)
  else (visited, kept.2.state)

/-- `BucketMap::take`: the canonical table as it was, whose buckets the caller
goes on to read, and the bucket of the empty list if it was touched. -/
def take (m : BucketMap K A) :
    BucketMap K A × HashTable (CanonicalEntry K) × Option V :=
  let noAttrVal := Record.current (m.cells m.noAttrEntry.bucket)
  ({ m with canonical := HashTable.empty, aliases := HashTable.empty }.clearNoAttr,
    m.canonical, if m.noAttrTouched then some noAttrVal else none)

end Record

section Scalar

variable [Scalar A T]

/-- `BucketMap::reset`.  On the empty list the touched flag is left as it is. -/
def reset (m : BucketMap K A) (attrs : List K) : BucketMap K A × T :=
  if attrs.isEmpty then
    let answer := Scalar.reset (m.cells m.noAttrEntry.bucket)
    (m.modifyCell m.noAttrEntry.bucket fun _ => answer.2, answer.1)
  else
    let found := m.getOrCreate cfg attrs
    let answer := Scalar.reset (found.1.cells found.2)
    (found.1.modifyCell found.2 fun _ => answer.2, answer.1)

def set (m : BucketMap K A) (value : T) (attrs : List K) : BucketMap K A :=
  if attrs.isEmpty then m.writeNoAttr fun cell => Scalar.store cell value
  else m.updateBucket cfg attrs fun cell => Scalar.store cell value

def get (m : BucketMap K A) (attrs : List K) : Option T :=
  if attrs.isEmpty then some (Scalar.get (m.cells m.noAttrEntry.bucket))
  else
    match m.getBucket cfg attrs with
    | .ok bucket => some (Scalar.get (m.cells bucket))
    | .error _ => none

end Scalar

end BucketMap

end Ohnotel
