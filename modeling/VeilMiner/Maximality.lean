import VeilMiner.Exactness

/- What addPackageTxs (miner.cpp, lines 573-701) leaves out of the block. The cursor walks every
   mempool entry once. An entry it passes is settled: it is in the block, in failedTx or in
   mapModifiedTx, or none of its ancestors is in the block and its package, measured exactly,
   is refused against the block as it stands. The last case survives a commit: a commit that
   takes an ancestor of the entry puts the entry in the overlay (UpdatePackagesForAdded), and
   one that does not leaves its package as it was while the block only grows. So when the loop
   ends with both views empty, the block has no room for any entry that never went to failedTx;
   entries of failedTx may have been refused on stale overlay aggregates. -/

set_option autoImplicit false

namespace Veil.Miner

variable {c : Consensus} {pool : TxMemPool}

-- considerPackage with the test that decided it: a candidate TestPackage refuses on the
-- aggregates it was selected on, or TestPackageTransactions refuses on its package, is dropped
-- (and counted as a consecutive failure in the first case); one both accept is committed.
theorem considerPackage_tested {s next : PackageLoop} {iter : TxMemPoolEntry}
    {aggregates : PackageAggregates} {fUsingModified : Bool}
    (outcome : considerPackage c pool s iter aggregates fUsingModified = .continue next ∨
      considerPackage c pool s iter aggregates fUsingModified = .exit next) :
    ((testPackage c s.asm aggregates.size aggregates.sigOps = false ∨
        testPackageTransactions c s.asm (packageOf pool s.asm.inBlock iter) = false) ∧
      (next = { s.dropCandidate iter fUsingModified with
          nConsecutiveFailed := s.nConsecutiveFailed + 1 } ∨
        next = s.dropCandidate iter fUsingModified)) ∨
    next = s.commit pool (packageOf pool s.asm.inBlock iter) aggregates := by
  unfold considerPackage at outcome
  by_cases member : iter.hash ∈ s.asm.inBlock
  · simp [member] at outcome
  simp only [member, if_false] at outcome
  split at outcome
  · rename_i refused
    simp only [Bool.not_eq_true'] at refused
    split at outcome <;>
      simp only [Iteration.continue.injEq, Iteration.exit.injEq, reduceCtorEq, or_false,
        false_or] at outcome <;>
      exact .inl ⟨.inl refused, .inl outcome.symm⟩
  · split at outcome <;> simp only [Iteration.continue.injEq, reduceCtorEq, or_false] at outcome
    · rename_i final
      simp only [Bool.not_eq_true'] at final
      exact .inl ⟨.inr final, .inr outcome.symm⟩
    · exact .inr outcome.symm

theorem referenceAccepts_of_addPackage {asm : BlockAssembler} {entries : List TxMemPoolEntry}
    {e : TxMemPoolEntry} (untouched : ∀ a ∈ e.ancestors, a ∉ entries.map TxMemPoolEntry.hash)
    (accepts : referenceAccepts c pool (addPackage asm entries) e = true) :
    referenceAccepts c pool asm e = true := by
  have package : packageOf pool (asm.inBlock ++ entries.map TxMemPoolEntry.hash) e =
      packageOf pool asm.inBlock e := by
    unfold packageOf onlyUnconfirmed
    congr 1
    refine List.filter_congr fun x member => ?_
    have ancestor := (mem_calculateMemPoolAncestors.1 member).2
    simp [untouched x.hash ancestor]
  rw [addPackage_eq] at accepts
  simp only [referenceAccepts, Bool.and_eq_true, package] at accepts ⊢
  obtain ⟨fits, final⟩ := accepts
  refine ⟨?_, final⟩
  obtain ⟨weight, sigOps⟩ := testPackage_true fits
  dsimp only at weight sigOps
  unfold testPackage
  split_ifs <;> first | rfl | omega

-- What the loop has settled for a mempool entry: it is in the block, in failedTx or in the
-- overlay, or none of its ancestors is in the block and its package, measured exactly, is
-- refused against the block as it stands.
def Settled (c : Consensus) (pool : TxMemPool) (s : PackageLoop) (e : TxMemPoolEntry) : Prop :=
  e.hash ∈ s.asm.inBlock ∨ e.hash ∈ s.failedTx ∨ modifiedContains s.mapModifiedTx e.hash ∨
    ((∀ a ∈ e.ancestors, a ∉ s.asm.inBlock) ∧ referenceAccepts c pool s.asm e = false)

def PassedSettled (c : Consensus) (pool : TxMemPool) (s : PackageLoop) : Prop :=
  ∀ e ∈ pool.mapTx, e ∉ s.mi → Settled c pool s e

section Settled

variable {s : PackageLoop} {e : TxMemPoolEntry}

theorem Settled.drop (settled : Settled c pool s e) (iter : TxMemPoolEntry) (b : Bool) :
    Settled c pool (s.dropCandidate iter b) e := by
  unfold PackageLoop.dropCandidate
  split
  · rcases settled with inBlock | failed | ⟨m, member, same⟩ | refused
    · exact .inl inBlock
    · exact .inr (.inl (List.mem_cons_of_mem _ failed))
    · by_cases erased : e.hash = iter.hash
      · exact .inr (.inl (erased ▸ List.mem_cons_self _ _))
      · exact .inr (.inr (.inl ⟨m, List.mem_filter.2 ⟨member,
          by simpa only [same, ne_eq, decide_eq_true_eq] using erased⟩, same⟩))
    · exact .inr (.inr (.inr refused))
  · exact settled

theorem Settled.commit (settled : Settled c pool s e) (present : e ∈ pool.mapTx)
    (iter : TxMemPoolEntry) (aggregates : PackageAggregates) :
    Settled c pool (s.commit pool (packageOf pool s.asm.inBlock iter) aggregates) e := by
  set added := (sortForBlock (packageOf pool s.asm.inBlock iter)).map TxMemPoolEntry.hash
  have grown : (s.commit pool (packageOf pool s.asm.inBlock iter) aggregates).asm.inBlock =
      s.asm.inBlock ++ added := by
    simp only [commit_asm, addPackage_eq, added]
  by_cases taken : e.hash ∈ added
  · exact .inl (grown ▸ List.mem_append_right _ taken)
  have outsidePackage : e.hash ∉ (packageOf pool s.asm.inBlock iter).map TxMemPoolEntry.hash :=
    fun member => taken (((sortForBlock_perm _).map _).mem_iff.2 member)
  have overlay : modifiedContains (eraseAdded s.mapModifiedTx
        (sortForBlock (packageOf pool s.asm.inBlock iter))) e.hash ∨
      (∃ x ∈ packageOf pool s.asm.inBlock iter, ∃ d ∈ calculateDescendants pool x,
        e.hash = d.hash ∧ d.hash ∉ (packageOf pool s.asm.inBlock iter).map TxMemPoolEntry.hash) →
      Settled c pool (s.commit pool (packageOf pool s.asm.inBlock iter) aggregates) e :=
    fun covered => .inr (.inr (.inl (updatePackagesForAdded_contains _ _ covered)))
  rcases settled with inBlock | failed | ⟨m, member, same⟩ | ⟨outside, refused⟩
  · exact .inl (grown ▸ List.mem_append_left _ inBlock)
  · exact .inr (.inl failed)
  · refine overlay (.inl ⟨m, ?_, same⟩)
    rw [eraseAdded_eq]
    exact List.mem_filter.2 ⟨member, by simpa only [same, decide_eq_true_eq] using taken⟩
  · by_cases descendant : ∃ a ∈ e.ancestors, a ∈ added
    · obtain ⟨a, ancestor, inAdded⟩ := descendant
      obtain ⟨x, xMember, rfl⟩ := List.mem_map.1 inAdded
      exact overlay (.inr ⟨x, mem_sortForBlock.1 xMember, e,
        mem_calculateDescendants.2 ⟨present, .inr ancestor⟩, rfl, outsidePackage⟩)
    · have untouched : ∀ a ∈ e.ancestors, a ∉ added := fun a ancestor inAdded =>
        descendant ⟨a, ancestor, inAdded⟩
      refine .inr (.inr (.inr ⟨fun a ancestor => ?_, ?_⟩))
      · rw [grown, List.mem_append, not_or]
        exact ⟨outside a ancestor, untouched a ancestor⟩
      · rw [Bool.eq_false_iff]
        intro accepts
        rw [commit_asm] at accepts
        exact Bool.eq_false_iff.1 refused (referenceAccepts_of_addPackage untouched accepts)

end Settled

theorem passedSettled_initial (asm : BlockAssembler) (nHeight : Nat) (nLockTimeCutoff : Int) :
    PassedSettled c pool (initialLoop pool (asm.beginBlock nHeight nLockTimeCutoff)) :=
  fun _ present passed => absurd (mem_byAncestorScore.2 present) passed

theorem PassedSettled.behind {s : PackageLoop} {it e : TxMemPoolEntry} {rest : List TxMemPoolEntry}
    (passed : PassedSettled c pool s) (cursor : s.mi = it :: rest) (present : e ∈ pool.mapTx)
    (outside : e ∉ rest) (head : e ≠ it) : Settled c pool s e :=
  passed e present fun member => by
    rcases List.mem_cons.1 (cursor ▸ member) with same | later
    · exact head same
    · exact outside later

theorem PassedSettled.next {asm : BlockAssembler} {nHeight : Nat} {nLockTimeCutoff : Int}
    {s next : PackageLoop} (reach : Reachable c pool (asm.beginBlock nHeight nLockTimeCutoff) s)
    (passed : PassedSettled c pool s)
    (outcome : iterate c pool s = .continue next ∨ iterate c pool s = .exit next) :
    PassedSettled c pool next := by
  rcases iterate_selects (rfl : iterate c pool s = _) with ⟨it, rest, cursor, skipped, step⟩ |
    ⟨-, -, step⟩ | ⟨it, rest, cursor, notSkipped, -, step⟩ | ⟨best, -, -, step⟩ <;>
    rw [step] at outcome
  · obtain rfl : next = { s with mi := rest } := by simpa [eq_comm] using outcome
    intro e present outside
    by_cases head : e = it
    · subst head
      simp only [skipMapTxEntry, Bool.or_eq_true, decide_eq_true_eq] at skipped
      rcases skipped with (overlay | inBlock) | failed
      · exact .inr (.inr (.inl overlay))
      · exact .inl inBlock
      · exact .inr (.inl failed)
    · exact passed.behind cursor present outside head
  · obtain rfl : next = s := by simpa [eq_comm] using outcome
    exact passed
  · -- The head was not skipped, so no ancestor of it is in the block.
    simp only [skipMapTxEntry, Bool.or_eq_false_iff, decide_eq_false_iff_not] at notSkipped
    obtain ⟨⟨notModified, fresh⟩, notFailed⟩ := notSkipped
    have itPresent : it ∈ pool.mapTx := reach.loopInv.cursor it (cursor ▸ List.mem_cons_self _ _)
    have none : ∀ a ∈ it.ancestors, a ∉ s.asm.inBlock := fun a ancestor inBlock =>
      (reach.covered it itPresent fresh ⟨a, ancestor, inBlock⟩).elim notModified notFailed
    rcases considerPackage_tested outcome with ⟨refused, dropped⟩ | rfl
    · intro e present outside
      have passedRest : e ∉ rest := by rcases dropped with rfl | rfl <;> exact outside
      have settled : Settled c pool { s with mi := rest } e := by
        by_cases head : e = it
        · subst head
          refine .inr (.inr (.inr ⟨none, ?_⟩))
          simp only [referenceAccepts, exactAggregates_packageOf present none, Bool.and_eq_false_iff]
          exact refused
        · exact passed.behind cursor present passedRest head
      rcases dropped with rfl | rfl <;> exact settled.drop it false
    · intro e present outside
      by_cases head : e = it
      · subst head
        refine .inl ?_
        simp only [commit_asm, addPackage_eq, List.mem_append, List.mem_map]
        exact .inr ⟨e, mem_sortForBlock.2 (mem_packageOf.2 (.inl rfl)), rfl⟩
      · exact (passed.behind cursor present outside head :
          Settled c pool { s with mi := rest } e).commit present it it.aggregates
  · rcases considerPackage_tested outcome with ⟨-, dropped⟩ | rfl
    · intro e present outside
      rcases dropped with rfl | rfl <;> exact (passed e present outside).drop best.iter true
    · exact fun e present outside => (passed e present outside).commit present _ _

theorem Reachable.passedSettled {asm : BlockAssembler} {nHeight : Nat} {nLockTimeCutoff : Int}
    {s : PackageLoop} (reach : Reachable c pool (asm.beginBlock nHeight nLockTimeCutoff) s) :
    PassedSettled c pool s := by
  induction reach with
  | init => exact passedSettled_initial asm nHeight nLockTimeCutoff
  | step reach step passed => exact passed.next reach (.inl step)

theorem Visited.passedSettled {asm : BlockAssembler} {nHeight : Nat} {nLockTimeCutoff : Int}
    {s : PackageLoop} (visited : Visited c pool (asm.beginBlock nHeight nLockTimeCutoff) s) :
    PassedSettled c pool s := by
  cases visited with
  | running reach => exact reach.passedSettled
  | finished reach exit => exact reach.passedSettled.next reach (.inr exit)

theorem addPackageTxs_exhausted_maximal (c : Consensus) (pool : TxMemPool) (asm : BlockAssembler)
    (nHeight : Nat) (nLockTimeCutoff : Int) (final : PackageLoop)
    (done : addPackageTxs c pool (asm.beginBlock nHeight nLockTimeCutoff) = some final)
    (exhausted : final.mi = [] ∧ final.mapModifiedTx = []) :
    ∀ e ∈ pool.mapTx, e.hash ∉ final.asm.inBlock → e.hash ∉ final.failedTx →
      (∀ a ∈ e.ancestors, a ∉ final.asm.inBlock) ∧ referenceAccepts c pool final.asm e = false := by
  intro e present outside notFailed
  have passed : e ∉ final.mi := exhausted.1 ▸ List.not_mem_nil e
  rcases (addPackageTxs_visited done).passedSettled e present passed with
    inBlock | failed | ⟨m, member, -⟩ | refused
  · exact absurd inBlock outside
  · exact absurd failed notFailed
  · exact absurd (exhausted.2 ▸ member) (List.not_mem_nil m)
  · exact refused

def heavyEntry : TxMemPoolEntry :=
  ⟨scenarioTx 4 104 [⟨true, [.data 14], 500⟩], 100, 400, 500, 500, 90000, [], 1, 100, 500, 90000⟩

def heavyPool : TxMemPool where
  mapTx := [scenarioA, heavyEntry]
  hashes_nodup := by decide
  ancestors_nodup := by decide
  ancestors_present := by decide
  ancestors_trans := by decide
  ancestors_irrefl := by decide
  count_exact := by decide
  size_exact := by decide
  fees_exact := by decide
  sigops_exact := by decide
  size_pos := by decide

theorem heavy_exhausted_maximal :
    ∃ final, addPackageTxs scenarioConsensus heavyPool scenarioStart = some final ∧
      (final.mi = [] ∧ final.mapModifiedTx = []) ∧
      heavyEntry.hash ∉ final.asm.inBlock ∧ heavyEntry.hash ∉ final.failedTx ∧
      ∀ e ∈ heavyPool.mapTx, e.hash ∉ final.asm.inBlock → e.hash ∉ final.failedTx →
        (∀ a ∈ e.ancestors, a ∉ final.asm.inBlock) ∧
          referenceAccepts scenarioConsensus heavyPool final.asm e = false :=
  have done := (Option.some_get (by decide :
    (addPackageTxs scenarioConsensus heavyPool scenarioStart).isSome)).symm
  ⟨_, done, by decide, by decide, by decide, addPackageTxs_exhausted_maximal scenarioConsensus heavyPool
    (BlockAssembler.create scenarioConsensus 4000000) 1 0 _ done (by decide)⟩

end Veil.Miner
