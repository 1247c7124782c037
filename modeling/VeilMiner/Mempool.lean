import Mathlib

/- The data the block assembler of miner.cpp reads from its collaborators: the transactions
   it places in a block, the mempool entries with their cached ancestor aggregates, and the
   ancestor-feerate order of the mempool's ancestor_score index. The mempool itself
   (txmempool.h) is not part of the sources: what it promises is carried by `TxMemPool` as
   fields, so that no theorem about the assembler can be fed a pool that breaks them. Scripts
   are lists of pushes and amounts are unbounded integers. A hash is the uint256 whose bytes
   data[0..31] are its base-256 digits, least significant first, as UintToArith256 reads
   them; uint256's operator< compares those bytes with memcmp. -/

set_option autoImplicit false

namespace Veil.Miner

inductive ScriptElem where
  | num (value : Nat)
  | op0
  | data (bytes : Nat)
  | coinbaseFlags
deriving DecidableEq, Repr

abbrev Script := List ScriptElem

structure OutPoint where
  hash : Nat
  n : Nat
deriving DecidableEq, Repr

structure TxIn where
  prevout : OutPoint
  scriptSig : Script
  anon : Bool
deriving DecidableEq, Repr

structure TxOut where
  standard : Bool
  scriptPubKey : Script
  value : Int
deriving DecidableEq, Repr

structure Transaction where
  hash : Nat
  vin : List TxIn
  vpout : List TxOut
  hasWitness : Bool
  isZerocoinSpend : Bool
  isZerocoinMint : Bool
  serialHashes : List Nat
  pubcoinHashes : List Nat
deriving DecidableEq, Repr

-- `ancestors` is the answer of CalculateMemPoolAncestors with no limits, the entry excluded.
structure TxMemPoolEntry where
  tx : Transaction
  nTxSize : Nat
  nTxWeight : Nat
  nFee : Int
  nModFee : Int
  sigOpCost : Nat
  ancestors : List Nat
  nCountWithAncestors : Nat
  nSizeWithAncestors : Nat
  nModFeesWithAncestors : Int
  nSigOpCostWithAncestors : Nat
deriving DecidableEq, Repr

def TxMemPoolEntry.hash (entry : TxMemPoolEntry) : Nat := entry.tx.hash

-- The bytes of a uint256 read most significant first by memcmp, as one number: `uint256Key a <
-- uint256Key b` is `a < b` on uint256.
def uint256Key (h : Nat) : Nat :=
  ((List.range 32).map fun i => h / 256 ^ i % 256).foldl (fun acc byte => acc * 256 + byte) 0

def ancestorsIn (mapTx : List TxMemPoolEntry) (entry : TxMemPoolEntry) : List TxMemPoolEntry :=
  mapTx.filter fun x => x.hash ∈ entry.ancestors

structure TxMemPool where
  mapTx : List TxMemPoolEntry
  hashes_nodup : (mapTx.map TxMemPoolEntry.hash).Nodup
  ancestors_nodup : ∀ entry ∈ mapTx, entry.ancestors.Nodup
  ancestors_present : ∀ entry ∈ mapTx, ∀ a ∈ entry.ancestors, ∃ x ∈ mapTx, x.hash = a
  ancestors_trans : ∀ entry ∈ mapTx, ∀ x ∈ mapTx, x.hash ∈ entry.ancestors →
    ∀ a ∈ x.ancestors, a ∈ entry.ancestors
  ancestors_irrefl : ∀ entry ∈ mapTx, entry.hash ∉ entry.ancestors
  count_exact : ∀ entry ∈ mapTx, entry.nCountWithAncestors = entry.ancestors.length + 1
  size_exact : ∀ entry ∈ mapTx,
    entry.nSizeWithAncestors = entry.nTxSize + ((ancestorsIn mapTx entry).map (·.nTxSize)).sum
  fees_exact : ∀ entry ∈ mapTx,
    entry.nModFeesWithAncestors = entry.nModFee + ((ancestorsIn mapTx entry).map (·.nModFee)).sum
  sigops_exact : ∀ entry ∈ mapTx, entry.nSigOpCostWithAncestors =
    entry.sigOpCost + ((ancestorsIn mapTx entry).map (·.sigOpCost)).sum
  size_pos : ∀ entry ∈ mapTx, 0 < entry.nTxSize

structure AncestorScore where
  fees : Int
  size : Int
  hash : Nat
deriving DecidableEq, Repr

/-- CompareTxMemPoolEntryByAncestorFee (txmempool.h, not part of the sources) taken as ordering by
    the feerate with ancestors alone: `a.before b` when a's is the higher one, compared without
    division, and on equal feerates when a's hash is the smaller. Bitcoin Core's comparator
    scores an entry by the lower of its own and its ancestor feerate instead. -/
def AncestorScore.before (a b : AncestorScore) : Bool :=
  if a.fees * b.size = a.size * b.fees then a.hash < b.hash else a.fees * b.size > a.size * b.fees

def TxMemPoolEntry.score (entry : TxMemPoolEntry) : AncestorScore :=
  ⟨entry.nModFeesWithAncestors, entry.nSizeWithAncestors, entry.hash⟩

def byAncestorScore (pool : TxMemPool) : List TxMemPoolEntry :=
  pool.mapTx.insertionSort fun a b => a.score.before b.score = true

/-- CalculateMemPoolAncestors with no limits (txmempool.cpp): the entry's in-mempool ancestors. -/
def calculateMemPoolAncestors (pool : TxMemPool) (entry : TxMemPoolEntry) : List TxMemPoolEntry :=
  ancestorsIn pool.mapTx entry

/-- CalculateDescendants (txmempool.cpp): the entry and every in-mempool descendant. -/
def calculateDescendants (pool : TxMemPool) (entry : TxMemPoolEntry) : List TxMemPoolEntry :=
  pool.mapTx.filter fun d => d.hash = entry.hash ∨ entry.hash ∈ d.ancestors

theorem mem_calculateMemPoolAncestors {pool : TxMemPool} {entry x : TxMemPoolEntry} :
    x ∈ calculateMemPoolAncestors pool entry ↔ x ∈ pool.mapTx ∧ x.hash ∈ entry.ancestors := by
  simp [calculateMemPoolAncestors, ancestorsIn]

theorem mem_calculateDescendants {pool : TxMemPool} {entry d : TxMemPoolEntry} :
    d ∈ calculateDescendants pool entry ↔
      d ∈ pool.mapTx ∧ (d.hash = entry.hash ∨ entry.hash ∈ d.ancestors) := by
  simp [calculateDescendants]

theorem mem_byAncestorScore {pool : TxMemPool} {entry : TxMemPoolEntry} :
    entry ∈ byAncestorScore pool ↔ entry ∈ pool.mapTx :=
  List.mem_insertionSort _

theorem TxMemPool.eq_of_hash_eq (pool : TxMemPool) {x y : TxMemPoolEntry} (hx : x ∈ pool.mapTx)
    (hy : y ∈ pool.mapTx) (same : x.hash = y.hash) : x = y :=
  List.inj_on_of_nodup_map pool.hashes_nodup hx hy same

theorem TxMemPool.ancestor_hash_ne (pool : TxMemPool) {entry x : TxMemPoolEntry}
    (hentry : entry ∈ pool.mapTx) (ancestor : x.hash ∈ entry.ancestors) : x.hash ≠ entry.hash :=
  fun same => pool.ancestors_irrefl entry hentry (same ▸ ancestor)

end Veil.Miner
