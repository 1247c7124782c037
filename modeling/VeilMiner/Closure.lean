import VeilMiner.Invariant

/- Package selection never places a transaction before one of its in-mempool ancestors, and
   never leaves an ancestor of an included transaction out of the block. -/

set_option autoImplicit false

namespace Veil.Miner

variable {pool : TxMemPool}

theorem Appended.mem_of_hash {asm : BlockAssembler} {entries : List TxMemPoolEntry}
    (appended : Appended pool asm entries) {x : TxMemPoolEntry} (present : x ∈ pool.mapTx)
    (included : x.hash ∈ asm.inBlock) : x ∈ entries := by
  rw [appended.inBlock] at included
  obtain ⟨e, member, same⟩ := List.mem_map.1 included
  exact pool.eq_of_hash_eq (appended.present e member) present same ▸ member

theorem Appended.closed {asm : BlockAssembler} {entries : List TxMemPoolEntry}
    (appended : Appended pool asm entries) :
    ∀ x ∈ pool.mapTx, x.hash ∈ asm.inBlock → ∀ a ∈ x.ancestors, a ∈ asm.inBlock := by
  intro x present included a ancestor
  obtain ⟨before, after, split⟩ := List.append_of_mem (appended.mem_of_hash present included)
  obtain ⟨y, yPresent, rfl⟩ := pool.ancestors_present x present a ancestor
  have earlier := appended.linearized before x after split y
    (List.mem_filter.2 ⟨yPresent, decide_eq_true ancestor⟩)
  rw [appended.inBlock, split]
  exact List.mem_map_of_mem _ (List.mem_append_left _ earlier)

theorem Appended.ancestors_first {asm : BlockAssembler} {entries : List TxMemPoolEntry}
    (appended : Appended pool asm entries) :
    ∀ (before after : List (Option Transaction)) (x : TxMemPoolEntry),
      asm.vtx = before ++ some x.tx :: after → x ∈ pool.mapTx →
        ∀ a ∈ pool.mapTx, a.hash ∈ x.ancestors → some a.tx ∈ before := by
  intro before after x split present a aPresent ancestor
  rw [appended.vtx] at split
  cases before with
  | nil => cases split
  | cons head before =>
      simp only [List.cons_append, List.cons.injEq] at split
      obtain ⟨early, late, rfl, rest, same⟩ := List.map_eq_append_iff.1 split.2
      obtain ⟨y, tail, rfl, tx, -⟩ := List.map_eq_cons_iff.1 same
      have yPresent := appended.present y (by simp [rest])
      have yx : y = x := pool.eq_of_hash_eq yPresent present
        (congrArg Transaction.hash (Option.some.inj tx))
      subst yx
      have earlier := appended.linearized early y tail rfl a
        (List.mem_filter.2 ⟨aPresent, decide_eq_true ancestor⟩)
      rw [← rest]
      exact List.mem_cons_of_mem _ (List.mem_map_of_mem (some ∘ TxMemPoolEntry.tx) earlier)

theorem addPackageTxs_block_linearized (c : Consensus) (pool : TxMemPool) (asm : BlockAssembler)
    (nHeight : Nat) (nLockTimeCutoff : Int) (s : PackageLoop)
    (moment : Visited c pool (asm.beginBlock nHeight nLockTimeCutoff) s) :
    (∀ x ∈ pool.mapTx, x.hash ∈ s.asm.inBlock → ∀ a ∈ x.ancestors, a ∈ s.asm.inBlock) ∧
    ∀ (before after : List (Option Transaction)) (x : TxMemPoolEntry),
      s.asm.vtx = before ++ some x.tx :: after → x ∈ pool.mapTx →
        ∀ a ∈ pool.mapTx, a.hash ∈ x.ancestors → some a.tx ∈ before := by
  obtain ⟨entries, appended⟩ := moment.loopInv.appended
  exact ⟨appended.closed, appended.ancestors_first⟩

-- B spends A's only output and pays 100 to the script `[data 7]`; A and C spend confirmed coins.
def scenarioTx (hash spent : Nat) (vpout : List TxOut) : Transaction :=
  ⟨hash, [⟨⟨spent, 0⟩, [], false⟩], vpout, false, false, false, [], []⟩

def scenarioA : TxMemPoolEntry :=
  ⟨scenarioTx 1 101 [⟨true, [.data 11], 5000⟩], 100, 400, 100, 100, 0, [], 1, 100, 100, 0⟩

def scenarioB : TxMemPoolEntry :=
  ⟨scenarioTx 2 1 [⟨true, [.data 7], 100⟩], 100, 400, 200, 200, 0, [1], 2, 200, 300, 0⟩

def scenarioC : TxMemPoolEntry :=
  ⟨scenarioTx 3 103 [⟨true, [.data 13], 40⟩], 100, 400, 50, 50, 0, [], 1, 100, 50, 0⟩

def scenarioPool : TxMemPool where
  mapTx := [scenarioA, scenarioB, scenarioC]
  hashes_nodup := by decide
  ancestors_nodup := by decide
  ancestors_present := by decide
  ancestors_trans := by decide
  ancestors_irrefl := by decide
  count_exact := by decide
  size_exact := by decide
  fees_exact := by decide
  sigops_exact := by decide
  size_pos := by decide

def scenarioConsensus : Consensus := ⟨4, 4000000, 80000, fun _ _ _ => true⟩

def scenarioStart : BlockAssembler :=
  (BlockAssembler.create scenarioConsensus 4000000).beginBlock 1 0

def scenarioFirstCommit : PackageLoop :=
  { (initialLoop scenarioPool scenarioStart).commit scenarioPool [scenarioA, scenarioB]
      scenarioB.aggregates with mi := [scenarioA, scenarioC] }

theorem scenario_first_package :
    iterate scenarioConsensus scenarioPool (initialLoop scenarioPool scenarioStart) =
      .continue scenarioFirstCommit := by
  decide

theorem scenario_block_linearized :
    Visited scenarioConsensus scenarioPool scenarioStart scenarioFirstCommit ∧
    (∀ x ∈ scenarioPool.mapTx, x.hash ∈ scenarioFirstCommit.asm.inBlock →
      ∀ a ∈ x.ancestors, a ∈ scenarioFirstCommit.asm.inBlock) ∧
    ∀ (before after : List (Option Transaction)) (x : TxMemPoolEntry),
      scenarioFirstCommit.asm.vtx = before ++ some x.tx :: after → x ∈ scenarioPool.mapTx →
        ∀ a ∈ scenarioPool.mapTx, a.hash ∈ x.ancestors → some a.tx ∈ before :=
  have moment := Visited.running (Reachable.step Reachable.init scenario_first_package)
  ⟨moment, addPackageTxs_block_linearized scenarioConsensus scenarioPool _ 1 0 _ moment⟩

-- A parent P and two children. C pays for P: its package {P, C} scores 1100 over 200. D spends
-- P too and scores 1000 over 200 with it, but once P is in the block D's overlay entry is D
-- alone, 900 over 100.
def siblingTx (hash : Nat) (vin : List TxIn) (outputs : Nat) : Transaction :=
  ⟨hash, vin, List.replicate outputs ⟨true, [.data hash], 100⟩, false, false, false, [], []⟩

def siblingParent : TxMemPoolEntry :=
  ⟨siblingTx 11 [⟨⟨301, 0⟩, [], false⟩] 2, 100, 400, 100, 100, 0, [], 1, 100, 100, 0⟩

def siblingPayer : TxMemPoolEntry :=
  ⟨siblingTx 12 [⟨⟨11, 0⟩, [], false⟩] 1, 100, 400, 1000, 1000, 0, [11], 2, 200, 1100, 0⟩

def siblingSpender : TxMemPoolEntry :=
  ⟨siblingTx 13 [⟨⟨11, 1⟩, [], false⟩] 1, 100, 400, 900, 900, 0, [11], 2, 200, 1000, 0⟩

def siblingPool : TxMemPool where
  mapTx := [siblingParent, siblingPayer, siblingSpender]
  hashes_nodup := by decide
  ancestors_nodup := by decide
  ancestors_present := by decide
  ancestors_trans := by decide
  ancestors_irrefl := by decide
  count_exact := by decide
  size_exact := by decide
  fees_exact := by decide
  sigops_exact := by decide
  size_pos := by decide

def siblingStart : BlockAssembler := (BlockAssembler.create scenarioConsensus 4000000).beginBlock 1 0

def siblingFirstCommit : PackageLoop :=
  { (initialLoop siblingPool siblingStart).commit siblingPool [siblingParent, siblingPayer]
      siblingPayer.aggregates with mi := [siblingSpender, siblingParent] }

def siblingCursorDone : PackageLoop := { siblingFirstCommit with mi := [] }

theorem sibling_cursor_done : Reachable scenarioConsensus siblingPool siblingStart siblingCursorDone :=
  .step (.step (.step .init (by decide : iterate scenarioConsensus siblingPool
      (initialLoop siblingPool siblingStart) = .continue siblingFirstCommit))
    (by decide : iterate scenarioConsensus siblingPool siblingFirstCommit =
      .continue { siblingFirstCommit with mi := [siblingParent] }))
    (by decide)

end Veil.Miner
