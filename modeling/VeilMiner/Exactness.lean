import VeilMiner.Greedy

/- How exact the aggregates are that addPackageTxs selects on (miner.cpp, lines 510-550 and
   647-681). A mempool entry outside the block with an ancestor in the block is always in the
   overlay or in failedTx: UpdatePackagesForAdded inserts every descendant of a transaction it
   is told was included, and an overlay entry leaves the overlay only into the block or into
   failedTx. So an entry SkipMapTxEntry lets through has every ancestor outside the block, and
   its raw aggregates are those of its package. The overlay has no such guarantee: an entry
   erased on failure and re-created by a later UpdatePackagesForAdded starts again from the
   mempool's aggregates and subtracts only the ancestor just included. -/

set_option autoImplicit false

namespace Veil.Miner

section Cover

variable {pool : TxMemPool}

theorem updateDescendant_contains (added : List Nat) (it : TxMemPoolEntry)
    (acc : List ModifiedEntry × Nat) (d : TxMemPoolEntry) {hash : Nat}
    (covered : modifiedContains acc.1 hash ∨ (hash = d.hash ∧ d.hash ∉ added)) :
    modifiedContains (updateDescendant added it acc d).1 hash := by
  have kept : ∀ {h : Nat}, modifiedContains acc.1 h → modifiedContains
      (acc.1.map fun m => if m.iter.hash = d.hash then m.updateForParentInclusion it else m) h :=
    fun ⟨m, member, same⟩ => ⟨_, List.mem_map_of_mem _ member, by split <;> exact same⟩
  unfold updateDescendant
  split
  · rename_i inAdded
    exact covered.resolve_right fun ⟨_, fresh⟩ => fresh inAdded
  split
  · rename_i present
    rcases covered with old | ⟨rfl, -⟩
    · exact kept old
    · exact kept present
  · rcases covered with ⟨m, member, same⟩ | ⟨rfl, -⟩
    · exact ⟨m, List.mem_cons_of_mem _ member, same⟩
    · exact ⟨_, List.mem_cons_self _ _, rfl⟩

theorem fold_updateDescendant_contains (added : List Nat) (it : TxMemPoolEntry) {hash : Nat} :
    ∀ (descs : List TxMemPoolEntry) (acc : List ModifiedEntry × Nat),
      modifiedContains acc.1 hash ∨ (∃ d ∈ descs, hash = d.hash ∧ d.hash ∉ added) →
      modifiedContains (descs.foldl (updateDescendant added it) acc).1 hash
  | [], _, covered => covered.resolve_right fun ⟨_, absent, _⟩ => List.not_mem_nil _ absent
  | d :: rest, acc, covered => by
      refine fold_updateDescendant_contains added it rest _ ?_
      rcases covered with old | ⟨x, member, same, fresh⟩
      · exact .inl (updateDescendant_contains added it acc d (.inl old))
      · rcases List.mem_cons.1 member with rfl | later
        · exact .inl (updateDescendant_contains added it acc x (.inr ⟨same, fresh⟩))
        · exact .inr ⟨x, later, same, fresh⟩

theorem fold_updatePackages_contains (added : List Nat) {hash : Nat} :
    ∀ (todo : List TxMemPoolEntry) (acc : List ModifiedEntry × Nat),
      modifiedContains acc.1 hash ∨
        (∃ it ∈ todo, ∃ d ∈ calculateDescendants pool it, hash = d.hash ∧ d.hash ∉ added) →
      modifiedContains (todo.foldl (fun acc it => (calculateDescendants pool it).foldl
        (updateDescendant added it) acc) acc).1 hash
  | [], _, covered => covered.resolve_right fun ⟨_, absent, _⟩ => List.not_mem_nil _ absent
  | it :: rest, acc, covered => by
      refine fold_updatePackages_contains added rest _ ?_
      rcases covered with old | ⟨x, member, d, desc, same, fresh⟩
      · exact .inl (fold_updateDescendant_contains added it _ acc (.inl old))
      · rcases List.mem_cons.1 member with rfl | later
        · exact .inl (fold_updateDescendant_contains added x _ acc (.inr ⟨d, desc, same, fresh⟩))
        · exact .inr ⟨x, later, d, desc, same, fresh⟩

theorem updatePackagesForAdded_contains (alreadyAdded : List TxMemPoolEntry)
    (mapModifiedTx : List ModifiedEntry) {hash : Nat}
    (covered : modifiedContains mapModifiedTx hash ∨
      ∃ it ∈ alreadyAdded, ∃ d ∈ calculateDescendants pool it,
        hash = d.hash ∧ d.hash ∉ alreadyAdded.map TxMemPoolEntry.hash) :
    modifiedContains (updatePackagesForAdded pool alreadyAdded mapModifiedTx).1 hash :=
  fold_updatePackages_contains _ alreadyAdded (mapModifiedTx, 0) covered

end Cover

section Covered

variable {c : Consensus} {pool : TxMemPool}

def Covered (pool : TxMemPool) (s : PackageLoop) : Prop :=
  ∀ e ∈ pool.mapTx, e.hash ∉ s.asm.inBlock → (∃ a ∈ e.ancestors, a ∈ s.asm.inBlock) →
    modifiedContains s.mapModifiedTx e.hash ∨ e.hash ∈ s.failedTx

theorem covered_initial (asm : BlockAssembler) (nHeight : Nat) (nLockTimeCutoff : Int) :
    Covered pool (initialLoop pool (asm.beginBlock nHeight nLockTimeCutoff)) :=
  fun _ _ _ ⟨_, _, inBlock⟩ => by
    simp [initialLoop, BlockAssembler.beginBlock, BlockAssembler.resetBlock] at inBlock

theorem Covered.frame {s next : PackageLoop} (covered : Covered pool s) (asm : next.asm = s.asm)
    (overlay : next.mapModifiedTx = s.mapModifiedTx) (failedTx : next.failedTx = s.failedTx) :
    Covered pool next := by
  intro e present outside ancestor
  rw [asm] at outside ancestor
  rw [overlay, failedTx]
  exact covered e present outside ancestor

theorem Covered.drop {s : PackageLoop} (covered : Covered pool s) (iter : TxMemPoolEntry)
    (fUsingModified : Bool) : Covered pool (s.dropCandidate iter fUsingModified) := by
  unfold PackageLoop.dropCandidate
  split
  · intro e present outside ancestor
    rcases covered e present outside ancestor with ⟨m, member, same⟩ | failed
    · by_cases erased : e.hash = iter.hash
      · exact .inr (erased ▸ List.mem_cons_self _ _)
      · exact .inl ⟨m, List.mem_filter.2 ⟨member, by simpa [same] using erased⟩, same⟩
    · exact .inr (List.mem_cons_of_mem _ failed)
  · exact covered

theorem Covered.commit {s : PackageLoop} {iter : TxMemPoolEntry} {aggregates : PackageAggregates}
    (covered : Covered pool s) :
    Covered pool (s.commit pool (packageOf pool s.asm.inBlock iter) aggregates) := by
  intro e present outside ⟨a, ancestor, inBlock⟩
  simp only [commit_asm, addPackage_eq, List.mem_append, not_or] at outside inBlock
  simp only [commit_mapModifiedTx, PackageLoop.commit]
  have fresh : e.hash ∉ (packageOf pool s.asm.inBlock iter).map TxMemPoolEntry.hash := fun member =>
    outside.2 (((sortForBlock_perm _).map _).mem_iff.2 member)
  rcases inBlock with old | added
  · rcases covered e present outside.1 ⟨a, ancestor, old⟩ with contained | failed
    · refine .inl (updatePackagesForAdded_contains _ _ (.inl ?_))
      obtain ⟨m, member, same⟩ := contained
      rw [eraseAdded_eq]
      exact ⟨m, List.mem_filter.2 ⟨member, by simpa only [same, decide_eq_true_eq] using outside.2⟩, same⟩
    · exact .inr failed
  · obtain ⟨x, xMember, rfl⟩ := List.mem_map.1 added
    refine .inl (updatePackagesForAdded_contains _ _ (.inr ⟨x, mem_sortForBlock.1 xMember, e, ?_,
      rfl, fresh⟩))
    exact List.mem_filter.2 ⟨present, by simp [ancestor]⟩

theorem Covered.next {s next : PackageLoop} (covered : Covered pool s)
    (outcome : iterate c pool s = .continue next ∨ iterate c pool s = .exit next) :
    Covered pool next := by
  rcases iterate_cases outcome with ⟨it, rest, -, rfl⟩ | ⟨-, -, rfl⟩ |
    ⟨iter, aggregates, fUsingModified, mi, -, -, considered⟩
  · exact covered.frame rfl rfl rfl
  · exact covered
  · have shifted : Covered pool { s with mi := mi } := covered.frame rfl rfl rfl
    rcases considered with rfl | rfl | ⟨-, -, rfl⟩
    · exact (shifted.drop iter fUsingModified).frame rfl rfl rfl
    · exact shifted.drop iter fUsingModified
    · exact shifted.commit

theorem Reachable.covered {asm : BlockAssembler} {nHeight : Nat} {nLockTimeCutoff : Int}
    {s : PackageLoop} (reach : Reachable c pool (asm.beginBlock nHeight nLockTimeCutoff) s) :
    Covered pool s := by
  induction reach with
  | init => exact covered_initial asm nHeight nLockTimeCutoff
  | step _ outcome covered => exact covered.next (.inl outcome)

end Covered

theorem exactAggregates_packageOf {pool : TxMemPool} {inBlock : List Nat} {e : TxMemPoolEntry}
    (present : e ∈ pool.mapTx) (outside : ∀ a ∈ e.ancestors, a ∉ inBlock) :
    exactAggregates (packageOf pool inBlock e) = e.aggregates := by
  have none : ∀ f : TxMemPoolEntry → Int, remainingSum pool e inBlock f = remainingSum pool e [] f := by
    intro f
    unfold remainingSum
    congr 3
    refine List.filter_congr fun a member => ?_
    have ancestor : a.hash ∈ e.ancestors := (List.mem_filter.1 member).2 |> of_decide_eq_true
    simp [outside a.hash ancestor]
  have component := fun k : Component =>
    (sum_packageOf pool k.ofEntry inBlock e).trans ((none _).trans (remainingSum_nil pool present k))
  unfold exactAggregates
  rw [component .size, component .fees, component .sigOps]
  rfl

theorem addPackageTxs_raw_exact (c : Consensus) (pool : TxMemPool) (asm : BlockAssembler)
    (nHeight : Nat) (nLockTimeCutoff : Int) (s : PackageLoop)
    (reach : Reachable c pool (asm.beginBlock nHeight nLockTimeCutoff) s) :
    ∀ e ∈ pool.mapTx, skipMapTxEntry e s.mapModifiedTx s.failedTx s.asm.inBlock = false →
      (∀ a ∈ e.ancestors, a ∉ s.asm.inBlock) ∧
      exactAggregates (packageOf pool s.asm.inBlock e) = e.aggregates := by
  intro e present skipped
  simp only [skipMapTxEntry, Bool.or_eq_false_iff, decide_eq_false_iff_not] at skipped
  obtain ⟨⟨notModified, outside⟩, notFailed⟩ := skipped
  have none : ∀ a ∈ e.ancestors, a ∉ s.asm.inBlock := fun a ancestor inBlock =>
    (reach.covered e present outside ⟨a, ancestor, inBlock⟩).elim notModified notFailed
  exact ⟨none, exactAggregates_packageOf present none⟩

theorem scenario_raw_exact :
    Reachable scenarioConsensus scenarioPool scenarioStart scenarioFirstCommit ∧
    ∀ e ∈ scenarioPool.mapTx, skipMapTxEntry e scenarioFirstCommit.mapModifiedTx
        scenarioFirstCommit.failedTx scenarioFirstCommit.asm.inBlock = false →
      (∀ a ∈ e.ancestors, a ∉ scenarioFirstCommit.asm.inBlock) ∧
      exactAggregates (packageOf scenarioPool scenarioFirstCommit.asm.inBlock e) = e.aggregates :=
  have reach := Reachable.step Reachable.init scenario_first_package
  ⟨reach, addPackageTxs_raw_exact scenarioConsensus scenarioPool _ 1 0 _ reach⟩

def afterIterations (c : Consensus) (pool : TxMemPool) : Nat → PackageLoop → Option PackageLoop
  | 0, s => some s
  | n + 1, s =>
      match iterate c pool s with
      | .continue next => afterIterations c pool n next
      | _ => none

theorem reachable_afterIterations {c : Consensus} {pool : TxMemPool} {start : BlockAssembler} :
    ∀ (n : Nat) {s final : PackageLoop}, Reachable c pool start s →
      afterIterations c pool n s = some final → Reachable c pool start final
  | 0, _, _, reach, done => by
      cases done
      exact reach
  | n + 1, s, final, reach, done => by
      unfold afterIterations at done
      split at done
      · exact reachable_afterIterations n (reach.step ‹_›) done
      · cases done

theorem overlay_recreated_inexact :
    ∃ s, Reachable scenarioConsensus stalePool staleStart s ∧ staleChild.hash ∈ s.failedTx ∧
      ∃ m ∈ s.mapModifiedTx, m.iter.hash = staleChild.hash ∧ m.aggregates = ⟨600, 5500, 100⟩ ∧
        exactAggregates (packageOf stalePool s.asm.inBlock m.iter) = ⟨100, 500, 0⟩ :=
  ⟨_, reachable_afterIterations 4 .init (Option.some_get (by decide :
      (afterIterations scenarioConsensus stalePool 4 (initialLoop stalePool staleStart)).isSome)).symm,
    by decide⟩

end Veil.Miner
