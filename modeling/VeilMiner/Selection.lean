import VeilMiner.Assembler

/- addPackageTxs (miner.cpp, lines 573-701), one loop iteration at a time. `mi` is the part of
   the ancestor_score index from the cursor to end(). `committed` is not a variable of the
   code: it records each package the loop commits, with the aggregates it was selected on,
   so that properties of the sequence of packages can be stated. -/

set_option autoImplicit false

namespace Veil.Miner

structure PackageAggregates where
  size : Int
  fees : Int
  sigOps : Int
deriving DecidableEq, Repr

def TxMemPoolEntry.aggregates (entry : TxMemPoolEntry) : PackageAggregates :=
  ⟨entry.nSizeWithAncestors, entry.nModFeesWithAncestors, entry.nSigOpCostWithAncestors⟩

def ModifiedEntry.aggregates (m : ModifiedEntry) : PackageAggregates :=
  ⟨m.nSizeWithAncestors, m.nModFeesWithAncestors, m.nSigOpCostWithAncestors⟩

structure Selected where
  members : List Nat
  aggregates : PackageAggregates
deriving DecidableEq, Repr

structure PackageLoop where
  asm : BlockAssembler
  mi : List TxMemPoolEntry
  mapModifiedTx : List ModifiedEntry
  failedTx : List Nat
  nConsecutiveFailed : Nat
  nPackagesSelected : Nat
  nDescendantsUpdated : Nat
  committed : List Selected
deriving DecidableEq, Repr

inductive Iteration where
  | continue (next : PackageLoop)
  | exit (last : PackageLoop)
  | assertFailure
deriving DecidableEq, Repr

def maxConsecutiveFailures : Nat := 1000

def initialLoop (pool : TxMemPool) (asm : BlockAssembler) : PackageLoop where
  asm := asm
  mi := byAncestorScore pool
  mapModifiedTx :=
    (updatePackagesForAdded pool (pool.mapTx.filter fun e => e.hash ∈ asm.inBlock) []).1
  failedTx := []
  nConsecutiveFailed := 0
  nPackagesSelected := 0
  nDescendantsUpdated := 0
  committed := []

def PackageLoop.dropCandidate (s : PackageLoop) (iter : TxMemPoolEntry) (fUsingModified : Bool) :
    PackageLoop :=
  if fUsingModified then
    { s with mapModifiedTx := eraseModified s.mapModifiedTx iter.hash,
             failedTx := iter.hash :: s.failedTx }
  else s

-- The commit loop of lines 690-694 appends each sorted entry and erases it from the overlay;
-- the two effects are independent, so they are written as two folds.
def addPackage (asm : BlockAssembler) (sortedEntries : List TxMemPoolEntry) : BlockAssembler :=
  sortedEntries.foldl addToBlock asm

def eraseAdded (mapModifiedTx : List ModifiedEntry) (sortedEntries : List TxMemPoolEntry) :
    List ModifiedEntry :=
  sortedEntries.foldl (fun m e => eraseModified m e.hash) mapModifiedTx

def PackageLoop.commit (pool : TxMemPool) (s : PackageLoop) (ancestors : List TxMemPoolEntry)
    (aggregates : PackageAggregates) : PackageLoop :=
  let sortedEntries := sortForBlock ancestors
  let updated := updatePackagesForAdded pool ancestors (eraseAdded s.mapModifiedTx sortedEntries)
  { s with asm := addPackage s.asm sortedEntries
           mapModifiedTx := updated.1
           nConsecutiveFailed := 0
           nPackagesSelected := s.nPackagesSelected + 1
           nDescendantsUpdated := s.nDescendantsUpdated + updated.2
           committed := s.committed ++ [⟨sortedEntries.map TxMemPoolEntry.hash, aggregates⟩] }

def packageOf (pool : TxMemPool) (inBlock : List Nat) (iter : TxMemPoolEntry) :
    List TxMemPoolEntry :=
  onlyUnconfirmed inBlock (calculateMemPoolAncestors pool iter) ++ [iter]

def considerPackage (c : Consensus) (pool : TxMemPool) (s : PackageLoop) (iter : TxMemPoolEntry)
    (aggregates : PackageAggregates) (fUsingModified : Bool) : Iteration :=
  if iter.hash ∈ s.asm.inBlock then .assertFailure
  else if !testPackage c s.asm aggregates.size aggregates.sigOps then
    let failed := { s.dropCandidate iter fUsingModified with
                    nConsecutiveFailed := s.nConsecutiveFailed + 1 }
    if failed.nConsecutiveFailed > maxConsecutiveFailures ∧
        failed.asm.nBlockWeight > failed.asm.nBlockMaxWeight - 4000 then .exit failed
    else .continue failed
  else
    let ancestors := packageOf pool s.asm.inBlock iter
    if !testPackageTransactions c s.asm ancestors then .continue (s.dropCandidate iter fUsingModified)
    else .continue (s.commit pool ancestors aggregates)

def iterate (c : Consensus) (pool : TxMemPool) (s : PackageLoop) : Iteration :=
  match s.mi with
  | it :: rest =>
      if skipMapTxEntry it s.mapModifiedTx s.failedTx s.asm.inBlock then
        .continue { s with mi := rest }
      else
        match bestModified s.mapModifiedTx with
        | some modit =>
            if modit.score.before it.score then
              considerPackage c pool s modit.iter modit.aggregates true
            else considerPackage c pool { s with mi := rest } it it.aggregates false
        | none => considerPackage c pool { s with mi := rest } it it.aggregates false
  | [] =>
      match bestModified s.mapModifiedTx with
      | some modit => considerPackage c pool s modit.iter modit.aggregates true
      | none => .exit s

def runLoop (c : Consensus) (pool : TxMemPool) : Nat → PackageLoop → Option PackageLoop
  | 0, _ => none
  | fuel + 1, s =>
      match iterate c pool s with
      | .continue next => runLoop c pool fuel next
      | .exit last => some last
      | .assertFailure => none

def loopFuel (pool : TxMemPool) : Nat := (pool.mapTx.length + 1) * (2 * pool.mapTx.length + 2)

def addPackageTxs (c : Consensus) (pool : TxMemPool) (asm : BlockAssembler) :
    Option PackageLoop :=
  runLoop c pool (loopFuel pool) (initialLoop pool asm)

inductive Reachable (c : Consensus) (pool : TxMemPool) (start : BlockAssembler) :
    PackageLoop → Prop
  | init : Reachable c pool start (initialLoop pool start)
  | step {s next : PackageLoop} : Reachable c pool start s → iterate c pool s = .continue next →
      Reachable c pool start next

-- A state the loop is in at some moment: at the head of an iteration, or once it has ended.
inductive Visited (c : Consensus) (pool : TxMemPool) (start : BlockAssembler) :
    PackageLoop → Prop
  | running {s : PackageLoop} : Reachable c pool start s → Visited c pool start s
  | finished {last s : PackageLoop} : Reachable c pool start last → iterate c pool last = .exit s →
      Visited c pool start s

theorem runLoop_exit {c : Consensus} {pool : TxMemPool} {start : BlockAssembler} :
    ∀ (fuel : Nat) {s final : PackageLoop}, Reachable c pool start s →
      runLoop c pool fuel s = some final →
        ∃ last, Reachable c pool start last ∧ iterate c pool last = .exit final
  | 0, _, _, _, done => by simp [runLoop] at done
  | fuel + 1, s, final, reach, done => by
      unfold runLoop at done
      split at done
      · exact runLoop_exit fuel (reach.step ‹_›) done
      · cases done
        exact ⟨s, reach, ‹_›⟩
      · cases done

theorem runLoop_visited {c : Consensus} {pool : TxMemPool} {start : BlockAssembler}
    (fuel : Nat) {s final : PackageLoop} (reach : Reachable c pool start s)
    (done : runLoop c pool fuel s = some final) : Visited c pool start final :=
  let ⟨_, reachLast, exit⟩ := runLoop_exit fuel reach done
  .finished reachLast exit

theorem addPackageTxs_visited {c : Consensus} {pool : TxMemPool} {start : BlockAssembler}
    {final : PackageLoop} (done : addPackageTxs c pool start = some final) :
    Visited c pool start final :=
  runLoop_visited _ .init done

end Veil.Miner
