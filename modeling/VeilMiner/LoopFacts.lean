import VeilMiner.Selection

/- What one iteration of addPackageTxs can do, said once: the closed forms of the commit's
   two folds, and the inversion of `iterate` into its five outcomes (advance the cursor, end,
   fail the fit test, fail the transaction test, commit). Every invariant of the loop is
   proved from these and never unfolds `iterate` again. -/

set_option autoImplicit false

namespace Veil.Miner

theorem addPackage_eq (asm : BlockAssembler) (sortedEntries : List TxMemPoolEntry) :
    addPackage asm sortedEntries =
      { asm with vtx := asm.vtx ++ sortedEntries.map (some ∘ TxMemPoolEntry.tx)
                 vTxFees := asm.vTxFees ++ sortedEntries.map (·.nFee)
                 vTxSigOpsCost := asm.vTxSigOpsCost ++ sortedEntries.map (fun e => (e.sigOpCost : Int))
                 nBlockWeight := asm.nBlockWeight + (sortedEntries.map (·.nTxWeight)).sum
                 nBlockTx := asm.nBlockTx + sortedEntries.length
                 nBlockSigOpsCost := asm.nBlockSigOpsCost + (sortedEntries.map (·.sigOpCost)).sum
                 nFees := asm.nFees + (sortedEntries.map (·.nFee)).sum
                 inBlock := asm.inBlock ++ sortedEntries.map TxMemPoolEntry.hash } := by
  induction sortedEntries generalizing asm with
  | nil => simp [addPackage]
  | cons e rest ih =>
      simp only [addPackage, List.foldl_cons] at ih ⊢
      rw [ih]
      simp only [addToBlock, List.map_cons, List.sum_cons, List.length_cons, List.append_assoc,
        List.singleton_append, Function.comp]
      congr 1 <;> omega

theorem eraseAdded_eq (mapModifiedTx : List ModifiedEntry) (sortedEntries : List TxMemPoolEntry) :
    eraseAdded mapModifiedTx sortedEntries =
      mapModifiedTx.filter fun m => m.iter.hash ∉ sortedEntries.map TxMemPoolEntry.hash := by
  induction sortedEntries generalizing mapModifiedTx with
  | nil => simp [eraseAdded]
  | cons e rest ih =>
      simp only [eraseAdded, List.foldl_cons] at ih ⊢
      rw [ih, eraseModified, List.filter_filter]
      congr 1
      funext m
      simp only [List.map_cons, List.mem_cons, not_or, Bool.decide_and, Bool.and_comm, ne_eq]

section Frame

variable (pool : TxMemPool) (s : PackageLoop) (iter : TxMemPoolEntry) (b : Bool)

@[simp] theorem dropCandidate_asm : (s.dropCandidate iter b).asm = s.asm := by
  unfold PackageLoop.dropCandidate; split <;> rfl

@[simp] theorem dropCandidate_mi : (s.dropCandidate iter b).mi = s.mi := by
  unfold PackageLoop.dropCandidate; split <;> rfl

@[simp] theorem dropCandidate_committed : (s.dropCandidate iter b).committed = s.committed := by
  unfold PackageLoop.dropCandidate; split <;> rfl

theorem dropCandidate_sublist : (s.dropCandidate iter b).mapModifiedTx.Sublist s.mapModifiedTx := by
  unfold PackageLoop.dropCandidate
  split
  · exact List.filter_sublist _
  · exact List.Sublist.refl _

theorem mem_dropCandidate_mapModifiedTx {m : ModifiedEntry}
    (member : m ∈ (s.dropCandidate iter b).mapModifiedTx) : m ∈ s.mapModifiedTx := by
  unfold PackageLoop.dropCandidate at member
  split at member
  · exact List.mem_of_mem_filter member
  · exact member

variable (ancestors : List TxMemPoolEntry) (aggregates : PackageAggregates)

@[simp] theorem commit_asm :
    (s.commit pool ancestors aggregates).asm = addPackage s.asm (sortForBlock ancestors) := rfl

@[simp] theorem commit_mi : (s.commit pool ancestors aggregates).mi = s.mi := rfl

@[simp] theorem commit_mapModifiedTx : (s.commit pool ancestors aggregates).mapModifiedTx =
    (updatePackagesForAdded pool ancestors
      (eraseAdded s.mapModifiedTx (sortForBlock ancestors))).1 := rfl

@[simp] theorem commit_committed : (s.commit pool ancestors aggregates).committed =
    s.committed ++ [⟨(sortForBlock ancestors).map TxMemPoolEntry.hash, aggregates⟩] := rfl

end Frame

-- Where the candidate of an iteration comes from: the cursor's head, when SkipMapTxEntry lets
-- it through (the cursor then moves past it), or an entry of the overlay.
inductive Candidate (s : PackageLoop) :
    TxMemPoolEntry → PackageAggregates → Bool → List TxMemPoolEntry → Prop
  | raw {it : TxMemPoolEntry} {rest : List TxMemPoolEntry} : s.mi = it :: rest →
      skipMapTxEntry it s.mapModifiedTx s.failedTx s.asm.inBlock = false →
      Candidate s it it.aggregates false rest
  | modified {m : ModifiedEntry} : m ∈ s.mapModifiedTx → Candidate s m.iter m.aggregates true s.mi

-- The three ways a considered candidate leaves the iteration.
def Considered (c : Consensus) (pool : TxMemPool) (s : PackageLoop) (iter : TxMemPoolEntry)
    (aggregates : PackageAggregates) (fUsingModified : Bool) (next : PackageLoop) : Prop :=
  next = { s.dropCandidate iter fUsingModified with nConsecutiveFailed := s.nConsecutiveFailed + 1 } ∨
  next = s.dropCandidate iter fUsingModified ∨
  (testPackage c s.asm aggregates.size aggregates.sigOps = true ∧
    testPackageTransactions c s.asm (packageOf pool s.asm.inBlock iter) = true ∧
    next = s.commit pool (packageOf pool s.asm.inBlock iter) aggregates)

variable {c : Consensus} {pool : TxMemPool}

theorem considerPackage_cases {s next : PackageLoop} {iter : TxMemPoolEntry}
    {aggregates : PackageAggregates} {fUsingModified : Bool}
    (outcome : considerPackage c pool s iter aggregates fUsingModified = .continue next ∨
      considerPackage c pool s iter aggregates fUsingModified = .exit next) :
    iter.hash ∉ s.asm.inBlock ∧ Considered c pool s iter aggregates fUsingModified next := by
  unfold considerPackage at outcome
  by_cases member : iter.hash ∈ s.asm.inBlock
  · simp [member] at outcome
  refine ⟨member, ?_⟩
  simp only [member, if_false] at outcome
  split at outcome
  · split at outcome <;>
      simp only [Iteration.continue.injEq, Iteration.exit.injEq, reduceCtorEq, or_false,
        false_or] at outcome <;>
      exact .inl outcome.symm
  · rename_i fits
    split at outcome <;> simp only [Iteration.continue.injEq, reduceCtorEq, or_false] at outcome
    · exact .inr (.inl outcome.symm)
    · rename_i final
      exact .inr (.inr ⟨by simpa using fits, by simpa using final, outcome.symm⟩)

-- What one iteration does, with the ranking that picked its candidate: advance past an entry
-- SkipMapTxEntry skips, end with both views empty, consider the cursor's head when the
-- overlay's best does not score before it, or consider the overlay's best, which scores before
-- the cursor's head when there is one.
theorem iterate_selects {s : PackageLoop} {outcome : Iteration} (step : iterate c pool s = outcome) :
    (∃ it rest, s.mi = it :: rest ∧ skipMapTxEntry it s.mapModifiedTx s.failedTx s.asm.inBlock = true ∧
      outcome = .continue { s with mi := rest }) ∨
    (s.mi = [] ∧ s.mapModifiedTx = [] ∧ outcome = .exit s) ∨
    (∃ it rest, s.mi = it :: rest ∧
      skipMapTxEntry it s.mapModifiedTx s.failedTx s.asm.inBlock = false ∧
      (∀ best, bestModified s.mapModifiedTx = some best → best.score.before it.score = false) ∧
      outcome = considerPackage c pool { s with mi := rest } it it.aggregates false) ∨
    (∃ best, bestModified s.mapModifiedTx = some best ∧
      (∀ it rest, s.mi = it :: rest → best.score.before it.score = true) ∧
      outcome = considerPackage c pool s best.iter best.aggregates true) := by
  subst step
  unfold iterate
  split
  · rename_i it rest cursor
    split
    · exact .inl ⟨it, rest, cursor, ‹_›, rfl⟩
    rename_i skip
    simp only [Bool.not_eq_true] at skip
    split
    · rename_i best found
      split
      · refine .inr (.inr (.inr ⟨best, found, fun it' rest' cursor' => ?_, rfl⟩))
        obtain ⟨rfl, -⟩ := List.cons.inj (cursor.symm.trans cursor')
        assumption
      · rename_i later
        refine .inr (.inr (.inl ⟨it, rest, cursor, skip, fun best' found' => ?_, rfl⟩))
        cases found.symm.trans found'
        simpa using later
    · exact .inr (.inr (.inl ⟨it, rest, cursor, skip, fun _ found' => by simp_all, rfl⟩))
  · rename_i cursor
    split
    · exact .inr (.inr (.inr ⟨_, ‹_›, fun _ _ cursor' => by simp [cursor] at cursor', rfl⟩))
    · exact .inr (.inl ⟨cursor, bestModified_eq_none.1 ‹_›, rfl⟩)

theorem iterate_cases {s next : PackageLoop}
    (outcome : iterate c pool s = .continue next ∨ iterate c pool s = .exit next) :
    (∃ it rest, s.mi = it :: rest ∧ next = { s with mi := rest }) ∨
    (s.mi = [] ∧ s.mapModifiedTx = [] ∧ next = s) ∨
    ∃ iter aggregates fUsingModified mi, Candidate s iter aggregates fUsingModified mi ∧
      iter.hash ∉ s.asm.inBlock ∧
      Considered c pool { s with mi := mi } iter aggregates fUsingModified next := by
  rcases iterate_selects (rfl : iterate c pool s = _) with ⟨it, rest, cursor, -, step⟩ |
    ⟨cursor, overlay, step⟩ | ⟨it, rest, cursor, skip, -, step⟩ | ⟨best, found, -, step⟩ <;>
    rw [step] at outcome
  · exact .inl ⟨it, rest, cursor, by simpa [eq_comm] using outcome⟩
  · exact .inr (.inl ⟨cursor, overlay, by simpa [eq_comm] using outcome⟩)
  · obtain ⟨fresh, considered⟩ := considerPackage_cases outcome
    exact .inr (.inr ⟨_, _, _, _, .raw cursor skip, fresh, considered⟩)
  · obtain ⟨fresh, considered⟩ := considerPackage_cases outcome
    exact .inr (.inr ⟨_, _, _, _, .modified (bestModified_mem found), fresh, by simpa using considered⟩)

theorem considerPackage_assertFailure {s : PackageLoop} {iter : TxMemPoolEntry}
    {aggregates : PackageAggregates} {fUsingModified : Bool}
    (failed : considerPackage c pool s iter aggregates fUsingModified = .assertFailure) :
    iter.hash ∈ s.asm.inBlock := by
  unfold considerPackage at failed
  by_contra fresh
  simp only [fresh, if_false] at failed
  split at failed <;> split at failed <;> cases failed

theorem considerPackage_exit {s last : PackageLoop} {iter : TxMemPoolEntry}
    {aggregates : PackageAggregates} {fUsingModified : Bool}
    (stopped : considerPackage c pool s iter aggregates fUsingModified = .exit last) :
    last.nConsecutiveFailed > maxConsecutiveFailures ∧
      last.asm.nBlockWeight > last.asm.nBlockMaxWeight - 4000 := by
  unfold considerPackage at stopped
  by_cases member : iter.hash ∈ s.asm.inBlock
  · simp [member] at stopped
  simp only [member, if_false] at stopped
  split at stopped
  · split at stopped
    · cases stopped
      assumption
    · cases stopped
  · split at stopped <;> cases stopped

theorem iterate_assertFailure {s : PackageLoop} (failed : iterate c pool s = .assertFailure) :
    ∃ iter aggregates fUsingModified mi, Candidate s iter aggregates fUsingModified mi ∧
      iter.hash ∈ s.asm.inBlock := by
  rcases iterate_selects failed with ⟨_, _, _, _, step⟩ | ⟨_, _, step⟩ |
    ⟨it, rest, cursor, skip, _, step⟩ | ⟨best, found, _, step⟩
  · cases step
  · cases step
  · have included := considerPackage_assertFailure step.symm
    exact ⟨_, _, _, _, .raw cursor skip, included⟩
  · have included := considerPackage_assertFailure step.symm
    exact ⟨_, _, _, _, .modified (bestModified_mem found), included⟩

end Veil.Miner
