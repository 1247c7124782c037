import VeilMiner.Resources

/- The greedy selector that addPackageTxs is meant to implement, stated from its contract and
   not from the code: among the entries neither in the block nor rejected, take the one whose
   package (the entry and its in-mempool ancestors not yet in the block) has the best feerate,
   computed exactly; commit the package if TestPackage and TestPackageTransactions accept its
   exact aggregates, and otherwise reject the entry until one of its ancestors is included.
   Every package the code commits is one this selector's test accepts; the code can still
   refuse a package the selector commits, because an overlay entry that failed and is then
   re-created by UpdatePackagesForAdded starts again from the mempool's aggregates. -/

set_option autoImplicit false

namespace Veil.Miner

def exactAggregates (package : List TxMemPoolEntry) : PackageAggregates :=
  ⟨(package.map Component.size.ofEntry).sum, (package.map Component.fees.ofEntry).sum,
    (package.map Component.sigOps.ofEntry).sum⟩

def exactScore (pool : TxMemPool) (inBlock : List Nat) (entry : TxMemPoolEntry) : AncestorScore :=
  let aggregates := exactAggregates (packageOf pool inBlock entry)
  ⟨aggregates.fees, aggregates.size, entry.hash⟩

def referenceAccepts (c : Consensus) (pool : TxMemPool) (asm : BlockAssembler)
    (entry : TxMemPoolEntry) : Bool :=
  let package := packageOf pool asm.inBlock entry
  testPackage c asm (exactAggregates package).size (exactAggregates package).sigOps &&
    testPackageTransactions c asm package

structure ReferenceState where
  asm : BlockAssembler
  rejected : List TxMemPoolEntry
  committed : List Selected
deriving DecidableEq, Repr

def ReferenceState.eligible (pool : TxMemPool) (g : ReferenceState) : List TxMemPoolEntry :=
  pool.mapTx.filter fun e => e.hash ∉ g.asm.inBlock ∧ e ∉ g.rejected

def bestExact (pool : TxMemPool) (inBlock : List Nat) : List TxMemPoolEntry → Option TxMemPoolEntry
  | [] => none
  | e :: rest => some (rest.foldl (fun best x =>
      if (exactScore pool inBlock x).before (exactScore pool inBlock best) then x else best) e)

def ReferenceState.step (c : Consensus) (pool : TxMemPool) (g : ReferenceState) :
    Option ReferenceState :=
  match bestExact pool g.asm.inBlock (g.eligible pool) with
  | none => none
  | some best =>
      let package := packageOf pool g.asm.inBlock best
      if referenceAccepts c pool g.asm best then
        some { asm := addPackage g.asm (sortForBlock package)
               rejected := g.rejected.filter fun r => !package.any fun a => a.hash ∈ r.ancestors
               committed := g.committed ++
                 [⟨(sortForBlock package).map TxMemPoolEntry.hash, exactAggregates package⟩] }
      else some { g with rejected := best :: g.rejected }

def referenceGreedy (c : Consensus) (pool : TxMemPool) : Nat → ReferenceState → Option ReferenceState
  | 0, _ => none
  | fuel + 1, g =>
      match g.step c pool with
      | none => some g
      | some next => referenceGreedy c pool fuel next

def referenceFuel (pool : TxMemPool) : Nat := (pool.mapTx.length + 1) * (pool.mapTx.length + 1) + 1

def referenceSelect (c : Consensus) (pool : TxMemPool) (asm : BlockAssembler) :
    Option ReferenceState :=
  referenceGreedy c pool (referenceFuel pool) ⟨asm, [], []⟩

theorem testPackage_mono {c : Consensus} {asm : BlockAssembler} {size size' sigOps sigOps' : Int}
    (smaller : size ≤ size') (fewer : sigOps ≤ sigOps') (fits : testPackage c asm size' sigOps' = true) :
    testPackage c asm size sigOps = true := by
  obtain ⟨weight, sigOpsFit⟩ := testPackage_true fits
  have scaled := mul_le_mul_of_nonneg_left smaller (Int.natCast_nonneg c.witnessScaleFactor)
  unfold testPackage
  split_ifs <;> first | rfl | omega

theorem candidate_referenceAccepts {c : Consensus} {pool : TxMemPool} {s : PackageLoop}
    {iter : TxMemPoolEntry} {aggregates : PackageAggregates} {fUsingModified : Bool}
    {mi : List TxMemPoolEntry} (inv : LoopInv pool s)
    (candidate : Candidate s iter aggregates fUsingModified mi)
    (fits : testPackage c s.asm aggregates.size aggregates.sigOps = true)
    (final : testPackageTransactions c s.asm (packageOf pool s.asm.inBlock iter) = true) :
    referenceAccepts c pool s.asm iter = true := by
  have size := candidate.covers inv .size (by decide)
  have sigOps := candidate.covers inv .sigOps (by decide)
  simp only [referenceAccepts, final, Bool.and_true]
  exact testPackage_mono size sigOps fits

theorem addPackageTxs_commit_accepted (c : Consensus) (pool : TxMemPool) (asm : BlockAssembler)
    (nHeight : Nat) (nLockTimeCutoff : Int) (s next : PackageLoop)
    (reach : Reachable c pool (asm.beginBlock nHeight nLockTimeCutoff) s)
    (step : iterate c pool s = .continue next) (grew : next.committed ≠ s.committed) :
    ∃ iter ∈ pool.mapTx, iter.hash ∉ s.asm.inBlock ∧ referenceAccepts c pool s.asm iter = true ∧
      next.asm = addPackage s.asm (sortForBlock (packageOf pool s.asm.inBlock iter)) := by
  have inv := reach.loopInv
  rcases iterate_cases (.inl step) with ⟨it, rest, -, rfl⟩ | ⟨-, -, rfl⟩ |
    ⟨iter, aggregates, fUsingModified, mi, candidate, fresh, considered⟩
  · exact absurd rfl grew
  · exact absurd rfl grew
  · rcases considered with rfl | rfl | ⟨fits, final, rfl⟩
    · exact absurd (by simp) grew
    · exact absurd (by simp) grew
    · exact ⟨iter, (candidate.present inv).1, fresh,
        candidate_referenceAccepts inv candidate fits final, rfl⟩

theorem scenario_commit_accepted :
    Reachable scenarioConsensus scenarioPool scenarioStart (initialLoop scenarioPool scenarioStart) ∧
    iterate scenarioConsensus scenarioPool (initialLoop scenarioPool scenarioStart) =
      .continue scenarioFirstCommit ∧
    scenarioFirstCommit.committed ≠ (initialLoop scenarioPool scenarioStart).committed ∧
    ∃ iter ∈ scenarioPool.mapTx, iter.hash ∉ (initialLoop scenarioPool scenarioStart).asm.inBlock ∧
      referenceAccepts scenarioConsensus scenarioPool
        (initialLoop scenarioPool scenarioStart).asm iter = true ∧
      scenarioFirstCommit.asm = addPackage (initialLoop scenarioPool scenarioStart).asm
        (sortForBlock (packageOf scenarioPool
          (initialLoop scenarioPool scenarioStart).asm.inBlock iter)) :=
  have grew : scenarioFirstCommit.committed ≠ (initialLoop scenarioPool scenarioStart).committed := by
    decide
  ⟨.init, scenario_first_package, grew,
    addPackageTxs_commit_accepted scenarioConsensus scenarioPool _ 1 0 _ _ .init
      scenario_first_package grew⟩

-- Two parents and a child. After A is included the child's overlay entry {B, child} fails the
-- fit test and is erased; including B then re-creates it from the mempool's aggregates minus
-- B, so that A is counted again and the child, which now fits alone, fails a second time.
-- Sizes are sigop-adjusted virtual sizes: A and B carry 100 sigops in 400 weight units.
def staleTx (hash : Nat) (vin : List TxIn) (value : Int) : Transaction :=
  ⟨hash, vin, [⟨true, [.data hash], value⟩], false, false, false, [], []⟩

def staleParentA : TxMemPoolEntry :=
  ⟨staleTx 1 [⟨⟨201, 0⟩, [], false⟩] 900, 500, 400, 5000, 5000, 100, [], 1, 500, 5000, 100⟩

def staleParentB : TxMemPoolEntry :=
  ⟨staleTx 2 [⟨⟨202, 0⟩, [], false⟩] 900, 500, 400, 50, 50, 100, [], 1, 500, 50, 100⟩

def staleChild : TxMemPoolEntry :=
  ⟨staleTx 3 [⟨⟨1, 0⟩, [], false⟩, ⟨⟨2, 0⟩, [], false⟩] 1300, 100, 400, 500, 500, 0, [1, 2], 3,
    1100, 5550, 200⟩

def stalePool : TxMemPool where
  mapTx := [staleParentA, staleParentB, staleChild]
  hashes_nodup := by decide
  ancestors_nodup := by decide
  ancestors_present := by decide
  ancestors_trans := by decide
  ancestors_irrefl := by decide
  count_exact := by decide
  size_exact := by decide
  fees_exact := by decide
  sigops_exact := by decide
  size_pos := by decide

def staleStart : BlockAssembler := (BlockAssembler.create scenarioConsensus 6600).beginBlock 1 0

theorem addPackageTxs_stale_child_refused :
    (addPackageTxs scenarioConsensus stalePool staleStart).map
        (fun s => (s.committed.map (·.members), s.nConsecutiveFailed, s.mi, s.mapModifiedTx)) =
      some ([[1], [2]], 1, [], []) ∧
    (referenceSelect scenarioConsensus stalePool staleStart).map
        (fun g => g.committed.map (·.members)) = some [[1], [2], [3]] := by
  decide

end Veil.Miner
