import VeilMiner.Closure

/- The block's weight and sigop cost along addPackageTxs. TestPackage checks the candidate's
   aggregates, not the package that is then added; the bound carries over because those
   aggregates are never smaller than the package, for an overlay entry as for a raw one. -/

set_option autoImplicit false

namespace Veil.Miner

variable {c : Consensus} {pool : TxMemPool}

theorem testPackage_true {asm : BlockAssembler} {packageSize packageSigOpsCost : Int}
    (fits : testPackage c asm packageSize packageSigOpsCost = true) :
    asm.nBlockWeight + c.witnessScaleFactor * packageSize < asm.nBlockMaxWeight ∧
      asm.nBlockSigOpsCost + packageSigOpsCost < c.maxBlockSigOpsCost := by
  unfold testPackage at fits
  split at fits
  · cases fits
  · split at fits
    · cases fits
    · omega

theorem Candidate.covers {s : PackageLoop} {iter : TxMemPoolEntry}
    {aggregates : PackageAggregates} {fUsingModified : Bool} {mi : List TxMemPoolEntry}
    (inv : LoopInv pool s) (candidate : Candidate s iter aggregates fUsingModified mi)
    (k : Component) (notFees : k ≠ .fees) :
    ((packageOf pool s.asm.inBlock iter).map k.ofEntry).sum ≤ k.ofAggregates aggregates := by
  rw [sum_packageOf]
  cases candidate with
  | raw cursor _ =>
      rw [← remainingSum_nil pool (inv.cursor _ (cursor ▸ List.mem_cons_self _ _))]
      exact remainingSum_anti pool _ (Component.ofEntry_nonneg notFees) _ fun _ h => absurd h (List.not_mem_nil _)
  | modified member =>
      obtain ⟨-, excluded, allowed, sums⟩ := inv.overlay _ member
      rw [sums k]
      exact remainingSum_anti pool _ (Component.ofEntry_nonneg notFees) _ allowed

structure Bounded (c : Consensus) (s : PackageLoop) : Prop where
  weight_le : s.asm.nBlockWeight ≤ s.asm.nBlockMaxWeight
  weight_lt : s.committed ≠ [] → s.asm.nBlockWeight < s.asm.nBlockMaxWeight
  sigOps_lt : s.asm.nBlockSigOpsCost < c.maxBlockSigOpsCost

theorem Bounded.frame {s next : PackageLoop} (bounded : Bounded c s) (asm : next.asm = s.asm)
    (committed : next.committed = s.committed) : Bounded c next :=
  ⟨asm ▸ bounded.weight_le, committed ▸ asm ▸ bounded.weight_lt, asm ▸ bounded.sigOps_lt⟩

theorem sum_weight_le (weights : ∀ e ∈ pool.mapTx, e.nTxWeight ≤ c.witnessScaleFactor * e.nTxSize)
    {package : List TxMemPoolEntry} (present : ∀ e ∈ package, e ∈ pool.mapTx) :
    ((((sortForBlock package).map (·.nTxWeight)).sum : Nat) : Int) ≤
      c.witnessScaleFactor * (package.map Component.size.ofEntry).sum := by
  have pointwise : (package.map (·.nTxWeight)).sum ≤
      (package.map fun e => c.witnessScaleFactor * e.nTxSize).sum :=
    List.sum_le_sum fun e member => weights e (present e member)
  rw [List.sum_map_mul_left] at pointwise
  calc ((((sortForBlock package).map (·.nTxWeight)).sum : Nat) : Int)
      = (((package.map (·.nTxWeight)).sum : Nat) : Int) := by
        rw [((sortForBlock_perm package).map _).sum_eq]
    _ ≤ ((c.witnessScaleFactor * (package.map (·.nTxSize)).sum : Nat) : Int) :=
        Nat.cast_le.2 pointwise
    _ = c.witnessScaleFactor * (package.map Component.size.ofEntry).sum := by
        simp [Component.ofEntry, Function.comp_def]

theorem Bounded.commit (weights : ∀ e ∈ pool.mapTx, e.nTxWeight ≤ c.witnessScaleFactor * e.nTxSize)
    {s : PackageLoop} {iter : TxMemPoolEntry} {aggregates : PackageAggregates}
    {fUsingModified : Bool} {mi : List TxMemPoolEntry} (inv : LoopInv pool s)
    (candidate : Candidate s iter aggregates fUsingModified mi)
    (fits : testPackage c s.asm aggregates.size aggregates.sigOps = true) :
    Bounded c ({ s with mi := mi }.commit pool (packageOf pool s.asm.inBlock iter) aggregates) := by
  obtain ⟨weightFits, sigOpsFit⟩ := testPackage_true fits
  have present : ∀ x ∈ packageOf pool s.asm.inBlock iter, x ∈ pool.mapTx :=
    packageOf_present (candidate.present inv).1
  have sizeCovered := candidate.covers inv .size (by decide)
  have sigOpsCovered := candidate.covers inv .sigOps (by decide)
  have weight := sum_weight_le weights present
  have sigOps :
      ((((sortForBlock (packageOf pool s.asm.inBlock iter)).map (·.sigOpCost)).sum : Nat) : Int) =
      ((packageOf pool s.asm.inBlock iter).map Component.sigOps.ofEntry).sum := by
    rw [((sortForBlock_perm _).map _).sum_eq]
    simp [Component.ofEntry, Function.comp_def]
  simp only [Component.ofAggregates] at sizeCovered sigOpsCovered
  have scaled := mul_le_mul_of_nonneg_left sizeCovered (Int.natCast_nonneg c.witnessScaleFactor)
  refine ⟨?_, fun _ => ?_, ?_⟩ <;> simp only [commit_asm, addPackage_eq] <;> omega

theorem Bounded.next (weights : ∀ e ∈ pool.mapTx, e.nTxWeight ≤ c.witnessScaleFactor * e.nTxSize)
    {s next : PackageLoop} (inv : LoopInv pool s) (bounded : Bounded c s)
    (outcome : iterate c pool s = .continue next ∨ iterate c pool s = .exit next) :
    Bounded c next := by
  rcases iterate_cases outcome with ⟨it, rest, -, rfl⟩ | ⟨-, -, rfl⟩ |
    ⟨iter, aggregates, fUsingModified, mi, candidate, -, considered⟩
  · exact bounded.frame rfl rfl
  · exact bounded
  · rcases considered with rfl | rfl | ⟨fits, -, rfl⟩
    · exact bounded.frame (by simp) (by simp)
    · exact bounded.frame (by simp) (by simp)
    · exact Bounded.commit weights inv candidate fits

theorem Reachable.bounded (weights : ∀ e ∈ pool.mapTx, e.nTxWeight ≤ c.witnessScaleFactor * e.nTxSize)
    (room : 400 < c.maxBlockSigOpsCost) {nBlockMaxWeight nHeight : Nat} {nLockTimeCutoff : Int}
    {s : PackageLoop} (reach : Reachable c pool
      ((BlockAssembler.create c nBlockMaxWeight).beginBlock nHeight nLockTimeCutoff) s) :
    Bounded c s := by
  induction reach with
  | init =>
      refine ⟨?_, fun empty => absurd rfl empty, room⟩
      exact create_nBlockMaxWeight_ge c nBlockMaxWeight
  | step reach outcome bounded => exact bounded.next weights reach.loopInv (.inl outcome)

theorem addPackageTxs_resources_bounded (c : Consensus) (pool : TxMemPool)
    (nBlockMaxWeight nHeight : Nat) (nLockTimeCutoff : Int)
    (weights : ∀ e ∈ pool.mapTx, e.nTxWeight ≤ c.witnessScaleFactor * e.nTxSize)
    (room : 400 < c.maxBlockSigOpsCost) (s : PackageLoop)
    (moment : Visited c pool
      ((BlockAssembler.create c nBlockMaxWeight).beginBlock nHeight nLockTimeCutoff) s) :
    (∃ appended : List TxMemPoolEntry, (∀ e ∈ appended, e ∈ pool.mapTx) ∧
      (appended.map TxMemPoolEntry.hash).Nodup ∧ s.asm.inBlock = appended.map TxMemPoolEntry.hash ∧
      s.asm.vtx = none :: appended.map (some ∘ TxMemPoolEntry.tx) ∧
      s.asm.nBlockWeight = 4000 + (appended.map (·.nTxWeight)).sum ∧
      s.asm.nBlockSigOpsCost = 400 + (appended.map (·.sigOpCost)).sum) ∧
    s.asm.nBlockWeight ≤ s.asm.nBlockMaxWeight ∧
    (s.committed ≠ [] → s.asm.nBlockWeight < s.asm.nBlockMaxWeight) ∧
    s.asm.nBlockSigOpsCost < c.maxBlockSigOpsCost ∧
    ∀ m ∈ s.mapModifiedTx,
      0 ≤ ((packageOf pool s.asm.inBlock m.iter).map fun e => (e.nTxSize : Int)).sum ∧
      ((packageOf pool s.asm.inBlock m.iter).map fun e => (e.nTxSize : Int)).sum ≤
        m.nSizeWithAncestors ∧
      0 ≤ ((packageOf pool s.asm.inBlock m.iter).map fun e => (e.sigOpCost : Int)).sum ∧
      ((packageOf pool s.asm.inBlock m.iter).map fun e => (e.sigOpCost : Int)).sum ≤
        m.nSigOpCostWithAncestors := by
  have inv := moment.loopInv
  have bounded : Bounded c s := by
    cases moment with
    | running reach => exact reach.bounded weights room
    | finished reach exit => exact (reach.bounded weights room).next weights reach.loopInv (.inr exit)
  obtain ⟨entries, appended⟩ := inv.appended
  refine ⟨⟨entries, appended.present, appended.nodup, appended.inBlock, appended.vtx, appended.weight,
    appended.sigOps⟩, bounded.weight_le,
    bounded.weight_lt, bounded.sigOps_lt, fun m member => ?_⟩
  have size := (Candidate.modified member).covers inv .size (by decide)
  have sigOps := (Candidate.modified member).covers inv .sigOps (by decide)
  refine ⟨List.sum_nonneg fun x hx => ?_, size, List.sum_nonneg fun x hx => ?_, sigOps⟩ <;>
    obtain ⟨e, -, rfl⟩ := List.mem_map.1 hx <;> omega

theorem sibling_resources_bounded :
    (∀ e ∈ siblingPool.mapTx, e.nTxWeight ≤ scenarioConsensus.witnessScaleFactor * e.nTxSize) ∧
    400 < scenarioConsensus.maxBlockSigOpsCost ∧
    Visited scenarioConsensus siblingPool siblingStart siblingCursorDone ∧
    (∃ appended : List TxMemPoolEntry, (∀ e ∈ appended, e ∈ siblingPool.mapTx) ∧
      (appended.map TxMemPoolEntry.hash).Nodup ∧
      siblingCursorDone.asm.inBlock = appended.map TxMemPoolEntry.hash ∧
      siblingCursorDone.asm.vtx = none :: appended.map (some ∘ TxMemPoolEntry.tx) ∧
      siblingCursorDone.asm.nBlockWeight = 4000 + (appended.map (·.nTxWeight)).sum ∧
      siblingCursorDone.asm.nBlockSigOpsCost = 400 + (appended.map (·.sigOpCost)).sum) ∧
    siblingCursorDone.asm.nBlockWeight ≤ siblingCursorDone.asm.nBlockMaxWeight ∧
    (siblingCursorDone.committed ≠ [] →
      siblingCursorDone.asm.nBlockWeight < siblingCursorDone.asm.nBlockMaxWeight) ∧
    siblingCursorDone.asm.nBlockSigOpsCost < scenarioConsensus.maxBlockSigOpsCost ∧
    ∀ m ∈ siblingCursorDone.mapModifiedTx,
      0 ≤ ((packageOf siblingPool siblingCursorDone.asm.inBlock m.iter).map
        fun e => (e.nTxSize : Int)).sum ∧
      ((packageOf siblingPool siblingCursorDone.asm.inBlock m.iter).map
        fun e => (e.nTxSize : Int)).sum ≤ m.nSizeWithAncestors ∧
      0 ≤ ((packageOf siblingPool siblingCursorDone.asm.inBlock m.iter).map
        fun e => (e.sigOpCost : Int)).sum ∧
      ((packageOf siblingPool siblingCursorDone.asm.inBlock m.iter).map
        fun e => (e.sigOpCost : Int)).sum ≤ m.nSigOpCostWithAncestors :=
  have weights : ∀ e ∈ siblingPool.mapTx,
      e.nTxWeight ≤ scenarioConsensus.witnessScaleFactor * e.nTxSize := by decide
  have moment := Visited.running sibling_cursor_done
  ⟨weights, by decide, moment, addPackageTxs_resources_bounded scenarioConsensus siblingPool
    4000000 1 0 weights (by decide) _ moment⟩

end Veil.Miner
