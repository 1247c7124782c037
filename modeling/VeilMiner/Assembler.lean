import VeilMiner.Mempool

/- BlockAssembler's state and the operations addPackageTxs is built from (miner.cpp, lines
   64-106 and 453-561). The consensus constants and IsFinalTx live in consensus/, which is not
   part of the sources: they are the fields of `Consensus`. The template's vectors (pblock->vtx,
   vTxFees, vTxSigOpsCost) are kept beside the assembler's counters, since AddToBlock writes
   both. blockMinFeeRate is left out: its only reader is the commented-out gate. -/

set_option autoImplicit false

namespace Veil.Miner

structure Consensus where
  witnessScaleFactor : Nat
  maxBlockWeight : Nat
  maxBlockSigOpsCost : Nat
  isFinalTx : Transaction → Nat → Int → Bool

structure BlockAssembler where
  nBlockMaxWeight : Nat
  inBlock : List Nat
  nBlockWeight : Nat
  nBlockSigOpsCost : Nat
  fIncludeWitness : Bool
  nBlockTx : Nat
  nFees : Int
  nHeight : Nat
  nLockTimeCutoff : Int
  vtx : List (Option Transaction)
  vTxFees : List Int
  vTxSigOpsCost : List Int
deriving DecidableEq, Repr

def BlockAssembler.create (c : Consensus) (nBlockMaxWeight : Nat) : BlockAssembler where
  nBlockMaxWeight := max 4000 (min (c.maxBlockWeight / 4) nBlockMaxWeight)
  inBlock := []
  nBlockWeight := 0
  nBlockSigOpsCost := 0
  fIncludeWitness := false
  nBlockTx := 0
  nFees := 0
  nHeight := 0
  nLockTimeCutoff := 0
  vtx := []
  vTxFees := []
  vTxSigOpsCost := []

theorem create_nBlockMaxWeight_ge (c : Consensus) (nBlockMaxWeight : Nat) :
    4000 ≤ (BlockAssembler.create c nBlockMaxWeight).nBlockMaxWeight :=
  le_max_left _ _

def BlockAssembler.resetBlock (asm : BlockAssembler) : BlockAssembler :=
  { asm with inBlock := [], nBlockWeight := 4000, nBlockSigOpsCost := 400,
             fIncludeWitness := false, nBlockTx := 0, nFees := 0 }

-- The assembler as CreateNewBlock hands it to addPackageTxs (lines 112-191): reset, a fresh
-- template holding the dummy coinbase and its -1 entries, the height, the lock-time cutoff,
-- and witness transactions allowed.
def BlockAssembler.beginBlock (asm : BlockAssembler) (nHeight : Nat) (nLockTimeCutoff : Int) :
    BlockAssembler :=
  { asm.resetBlock with vtx := [none], vTxFees := [-1], vTxSigOpsCost := [-1],
                        nHeight := nHeight, nLockTimeCutoff := nLockTimeCutoff,
                        fIncludeWitness := true }

def testPackage (c : Consensus) (asm : BlockAssembler) (packageSize packageSigOpsCost : Int) :
    Bool :=
  if asm.nBlockWeight + c.witnessScaleFactor * packageSize ≥ asm.nBlockMaxWeight then false
  else if asm.nBlockSigOpsCost + packageSigOpsCost ≥ c.maxBlockSigOpsCost then false
  else true

def testPackageTransactions (c : Consensus) (asm : BlockAssembler)
    (package : List TxMemPoolEntry) : Bool :=
  package.all fun it =>
    c.isFinalTx it.tx asm.nHeight asm.nLockTimeCutoff && !(!asm.fIncludeWitness && it.tx.hasWitness)

def addToBlock (asm : BlockAssembler) (iter : TxMemPoolEntry) : BlockAssembler :=
  { asm with vtx := asm.vtx ++ [some iter.tx]
             vTxFees := asm.vTxFees ++ [iter.nFee]
             vTxSigOpsCost := asm.vTxSigOpsCost ++ [(iter.sigOpCost : Int)]
             nBlockWeight := asm.nBlockWeight + iter.nTxWeight
             nBlockTx := asm.nBlockTx + 1
             nBlockSigOpsCost := asm.nBlockSigOpsCost + iter.sigOpCost
             nFees := asm.nFees + iter.nFee
             inBlock := asm.inBlock ++ [iter.hash] }

def onlyUnconfirmed (inBlock : List Nat) (testSet : List TxMemPoolEntry) : List TxMemPoolEntry :=
  testSet.filter fun it => it.hash ∉ inBlock

/-- CompareTxIterByAncestorCount (txmempool.h): ancestor count ascending, then the hash, as
    CompareIteratorByHash orders uint256. Hashes in a package are distinct, so the order is
    total and std::sort's result is this one. -/
def sortForBlock (package : List TxMemPoolEntry) : List TxMemPoolEntry :=
  package.insertionSort fun a b => a.nCountWithAncestors < b.nCountWithAncestors ∨
    (a.nCountWithAncestors = b.nCountWithAncestors ∧ uint256Key a.hash ≤ uint256Key b.hash)

-- CTxMemPoolModifiedEntry. Its aggregates are signed, so that a subtraction that would wrap
-- the code's unsigned field shows as a negative value.
structure ModifiedEntry where
  iter : TxMemPoolEntry
  nSizeWithAncestors : Int
  nModFeesWithAncestors : Int
  nSigOpCostWithAncestors : Int
deriving DecidableEq, Repr

def ModifiedEntry.ofEntry (entry : TxMemPoolEntry) : ModifiedEntry :=
  ⟨entry, entry.nSizeWithAncestors, entry.nModFeesWithAncestors, entry.nSigOpCostWithAncestors⟩

/-- update_for_parent_inclusion (miner.h, not part of the sources) subtracts the included
    parent's size, modified fee and sigop cost, as UpdatePackagesForAdded does by hand for an
    entry it creates. -/
def ModifiedEntry.updateForParentInclusion (m : ModifiedEntry) (parent : TxMemPoolEntry) :
    ModifiedEntry :=
  { m with nSizeWithAncestors := m.nSizeWithAncestors - parent.nTxSize
           nModFeesWithAncestors := m.nModFeesWithAncestors - parent.nModFee
           nSigOpCostWithAncestors := m.nSigOpCostWithAncestors - parent.sigOpCost }

def ModifiedEntry.score (m : ModifiedEntry) : AncestorScore :=
  ⟨m.nModFeesWithAncestors, m.nSizeWithAncestors, m.iter.hash⟩

def modifiedContains (mapModifiedTx : List ModifiedEntry) (hash : Nat) : Prop :=
  ∃ m ∈ mapModifiedTx, m.iter.hash = hash

instance (mapModifiedTx : List ModifiedEntry) (hash : Nat) :
    Decidable (modifiedContains mapModifiedTx hash) :=
  inferInstanceAs (Decidable (∃ m ∈ mapModifiedTx, m.iter.hash = hash))

def eraseModified (mapModifiedTx : List ModifiedEntry) (hash : Nat) : List ModifiedEntry :=
  mapModifiedTx.filter fun m => m.iter.hash ≠ hash

-- mapModifiedTx.get<ancestor_score>().begin(): the entry no other entry comes before.
def bestModified : List ModifiedEntry → Option ModifiedEntry
  | [] => none
  | m :: rest => some (rest.foldl (fun best x => if x.score.before best.score then x else best) m)

theorem foldl_best_mem (rest : List ModifiedEntry) (start : ModifiedEntry) :
    rest.foldl (fun best x => if x.score.before best.score then x else best) start = start ∨
      rest.foldl (fun best x => if x.score.before best.score then x else best) start ∈ rest := by
  induction rest generalizing start with
  | nil => exact .inl rfl
  | cons x rest ih =>
      simp only [List.foldl_cons, List.mem_cons]
      split
      · rcases ih x with same | member
        · exact .inr (.inl same)
        · exact .inr (.inr member)
      · rcases ih start with same | member
        · exact .inl same
        · exact .inr (.inr member)

theorem bestModified_mem {mapModifiedTx : List ModifiedEntry} {m : ModifiedEntry}
    (best : bestModified mapModifiedTx = some m) : m ∈ mapModifiedTx := by
  cases mapModifiedTx with
  | nil => cases best
  | cons start rest =>
      simp only [bestModified, Option.some.injEq] at best
      subst best
      rcases foldl_best_mem rest start with same | member
      · rw [same]
        exact List.mem_cons_self start rest
      · exact List.mem_cons_of_mem start member

def updateDescendant (alreadyAdded : List Nat) (it : TxMemPoolEntry)
    (acc : List ModifiedEntry × Nat) (desc : TxMemPoolEntry) : List ModifiedEntry × Nat :=
  if desc.hash ∈ alreadyAdded then acc
  else if modifiedContains acc.1 desc.hash then
    (acc.1.map fun m => if m.iter.hash = desc.hash then m.updateForParentInclusion it else m,
      acc.2 + 1)
  else ((ModifiedEntry.ofEntry desc).updateForParentInclusion it :: acc.1, acc.2 + 1)

def updatePackagesForAdded (pool : TxMemPool) (alreadyAdded : List TxMemPoolEntry)
    (mapModifiedTx : List ModifiedEntry) : List ModifiedEntry × Nat :=
  alreadyAdded.foldl
    (fun acc it => (calculateDescendants pool it).foldl
      (updateDescendant (alreadyAdded.map TxMemPoolEntry.hash) it) acc)
    (mapModifiedTx, 0)

theorem bestModified_eq_none {mapModifiedTx : List ModifiedEntry} :
    bestModified mapModifiedTx = none ↔ mapModifiedTx = [] := by
  cases mapModifiedTx <;> simp [bestModified]

def skipMapTxEntry (it : TxMemPoolEntry) (mapModifiedTx : List ModifiedEntry)
    (failedTx inBlock : List Nat) : Bool :=
  decide (modifiedContains mapModifiedTx it.hash) || decide (it.hash ∈ inBlock) ||
    decide (it.hash ∈ failedTx)

end Veil.Miner
