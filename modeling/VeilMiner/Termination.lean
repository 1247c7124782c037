import VeilMiner.Closure

/- Whole-run facts of addPackageTxs (miner.cpp, lines 510-535 and 573-701). The overlay
   never holds a transaction of the block: an entry UpdatePackagesForAdded creates is for a
   descendant of a transaction just included, and such a descendant is outside the block,
   since the block is closed under ancestors. So the assertion of line 631 never fails. And the
   loop ends: every iteration advances the cursor, erases an overlay entry or commits a package
   that takes one more mempool entry into the block, and the overlay grows only at a commit, so
   the pair (mempool entries outside the block, cursor positions left plus overlay entries)
   falls lexicographically at each iteration, and the fuel addPackageTxs is run with covers
   the longest such descent. It ends with both views empty, or by the MAX_CONSECUTIVE_FAILURES
   exit with the block nearly full. -/

set_option autoImplicit false

namespace Veil.Miner

section Update

variable {pool : TxMemPool}

theorem updateDescendant_iters (added : List Nat) (it : TxMemPoolEntry)
    (acc : List ModifiedEntry × Nat) (d : TxMemPoolEntry) :
    (updateDescendant added it acc d).1.map (·.iter) = acc.1.map (·.iter) ∨
      (d.hash ∉ added ∧ ¬ modifiedContains acc.1 d.hash ∧
        (updateDescendant added it acc d).1.map (·.iter) = d :: acc.1.map (·.iter)) := by
  unfold updateDescendant
  split
  · exact .inl rfl
  split
  · refine .inl ?_
    rw [List.map_map]
    congr 1
    funext m
    dsimp only [Function.comp]
    split <;> rfl
  · exact .inr ⟨‹_›, ‹_›, rfl⟩

theorem updateDescendant_iters_ok (ok : TxMemPoolEntry → Prop) {added : List Nat}
    {it d : TxMemPoolEntry} {acc : List ModifiedEntry × Nat}
    (old : ∀ x ∈ acc.1.map (·.iter), ok x)
    (nodup : ((acc.1.map (·.iter)).map TxMemPoolEntry.hash).Nodup) (new : d.hash ∉ added → ok d) :
    (∀ x ∈ (updateDescendant added it acc d).1.map (·.iter), ok x) ∧
      (((updateDescendant added it acc d).1.map (·.iter)).map TxMemPoolEntry.hash).Nodup := by
  rcases updateDescendant_iters added it acc d with same | ⟨fresh, absent, grown⟩
  · rw [same]
    exact ⟨old, nodup⟩
  · rw [grown, List.map_cons]
    refine ⟨fun x member => ?_, List.nodup_cons.2 ⟨fun inAcc => absent ?_, nodup⟩⟩
    · rcases List.mem_cons.1 member with rfl | inAcc
      · exact new fresh
      · exact old x inAcc
    · obtain ⟨x, xMember, same⟩ := List.mem_map.1 inAcc
      obtain ⟨m, member, rfl⟩ := List.mem_map.1 xMember
      exact ⟨m, member, same⟩

theorem fold_updateDescendant_iters (ok : TxMemPoolEntry → Prop) (added : List Nat)
    (it : TxMemPoolEntry) :
    ∀ (descs : List TxMemPoolEntry) (acc : List ModifiedEntry × Nat),
      (∀ x ∈ acc.1.map (·.iter), ok x) → ((acc.1.map (·.iter)).map TxMemPoolEntry.hash).Nodup →
      (∀ d ∈ descs, d.hash ∉ added → ok d) →
      (∀ x ∈ (descs.foldl (updateDescendant added it) acc).1.map (·.iter), ok x) ∧
        (((descs.foldl (updateDescendant added it) acc).1.map (·.iter)).map
          TxMemPoolEntry.hash).Nodup
  | [], _, old, nodup, _ => ⟨old, nodup⟩
  | d :: rest, acc, old, nodup, new =>
      let step := @updateDescendant_iters_ok ok added it d acc old nodup
        (new d (List.mem_cons_self d rest))
      fold_updateDescendant_iters ok added it rest _ step.1 step.2
        fun x member => new x (List.mem_cons_of_mem d member)

theorem fold_updatePackages_iters (ok : TxMemPoolEntry → Prop) (added : List Nat) :
    ∀ (todo : List TxMemPoolEntry) (acc : List ModifiedEntry × Nat),
      (∀ x ∈ acc.1.map (·.iter), ok x) → ((acc.1.map (·.iter)).map TxMemPoolEntry.hash).Nodup →
      (∀ it ∈ todo, ∀ d ∈ calculateDescendants pool it, d.hash ∉ added → ok d) →
      (∀ x ∈ (todo.foldl (fun acc it => (calculateDescendants pool it).foldl
          (updateDescendant added it) acc) acc).1.map (·.iter), ok x) ∧
        (((todo.foldl (fun acc it => (calculateDescendants pool it).foldl
          (updateDescendant added it) acc) acc).1.map (·.iter)).map TxMemPoolEntry.hash).Nodup
  | [], _, old, nodup, _ => ⟨old, nodup⟩
  | it :: rest, acc, old, nodup, new =>
      let inner := fold_updateDescendant_iters ok added it _ acc old nodup
        (new it (List.mem_cons_self it rest))
      fold_updatePackages_iters ok added rest _ inner.1 inner.2
        fun x member => new x (List.mem_cons_of_mem it member)

theorem updatePackagesForAdded_iters (ok : TxMemPoolEntry → Prop)
    (alreadyAdded : List TxMemPoolEntry) (mapModifiedTx : List ModifiedEntry)
    (old : ∀ m ∈ mapModifiedTx, ok m.iter)
    (nodup : (mapModifiedTx.map fun m => m.iter.hash).Nodup)
    (new : ∀ it ∈ alreadyAdded, ∀ d ∈ calculateDescendants pool it,
      d.hash ∉ alreadyAdded.map TxMemPoolEntry.hash → ok d) :
    (∀ m ∈ (updatePackagesForAdded pool alreadyAdded mapModifiedTx).1, ok m.iter) ∧
      ((updatePackagesForAdded pool alreadyAdded mapModifiedTx).1.map fun m => m.iter.hash).Nodup := by
  have done := fold_updatePackages_iters ok (alreadyAdded.map TxMemPoolEntry.hash) alreadyAdded
    (mapModifiedTx, 0) (by simpa only [List.forall_mem_map] using old)
    (by simpa only [List.map_map, Function.comp_def] using nodup) new
  simpa only [List.forall_mem_map, List.map_map, Function.comp_def] using done

end Update

section Overlay

variable {c : Consensus} {pool : TxMemPool}

structure OverlayInv (pool : TxMemPool) (s : PackageLoop) : Prop where
  outside : ∀ m ∈ s.mapModifiedTx, m.iter.hash ∉ s.asm.inBlock
  nodup : (s.mapModifiedTx.map fun m => m.iter.hash).Nodup
  cursor : s.mi.length ≤ pool.mapTx.length

theorem overlayInv_initial (asm : BlockAssembler) (nHeight : Nat) (nLockTimeCutoff : Int) :
    OverlayInv pool (initialLoop pool (asm.beginBlock nHeight nLockTimeCutoff)) := by
  have empty : (initialLoop pool (asm.beginBlock nHeight nLockTimeCutoff)).mapModifiedTx = [] := by
    simp [initialLoop, BlockAssembler.beginBlock, BlockAssembler.resetBlock, updatePackagesForAdded]
  refine ⟨by simp [empty], by simp [empty], ?_⟩
  simp [initialLoop, byAncestorScore, List.length_insertionSort]

theorem descendant_outside {asm : BlockAssembler} {entries : List TxMemPoolEntry}
    (appended : Appended pool asm entries) {it d : TxMemPoolEntry}
    (descendant : d ∈ calculateDescendants pool it) (other : d.hash ≠ it.hash)
    (fresh : it.hash ∉ asm.inBlock) : d.hash ∉ asm.inBlock := fun included =>
  have ancestor := (mem_calculateDescendants.1 descendant).2.resolve_left other
  fresh (appended.closed d (mem_calculateDescendants.1 descendant).1 included _ ancestor)

theorem OverlayInv.frame {s next : PackageLoop} (oinv : OverlayInv pool s) (asm : next.asm = s.asm)
    (cursor : next.mi.length ≤ s.mi.length)
    (overlay : next.mapModifiedTx.Sublist s.mapModifiedTx) : OverlayInv pool next :=
  ⟨fun m member => asm ▸ oinv.outside m (overlay.subset member),
    oinv.nodup.sublist (overlay.map _), cursor.trans oinv.cursor⟩

theorem OverlayInv.commit {s : PackageLoop} {iter : TxMemPoolEntry} {aggregates : PackageAggregates}
    (inv : LoopInv pool s) (oinv : OverlayInv pool s) (fresh : iter.hash ∉ s.asm.inBlock) :
    OverlayInv pool (s.commit pool (packageOf pool s.asm.inBlock iter) aggregates) := by
  obtain ⟨entries, appended⟩ := inv.appended
  have sorted : ∀ h, h ∈ (sortForBlock (packageOf pool s.asm.inBlock iter)).map TxMemPoolEntry.hash ↔
      h ∈ (packageOf pool s.asm.inBlock iter).map TxMemPoolEntry.hash := fun h =>
    ((sortForBlock_perm _).map _).mem_iff
  have updated := updatePackagesForAdded_iters
    (fun x => x.hash ∉ s.asm.inBlock ∧ x.hash ∉ (packageOf pool s.asm.inBlock iter).map TxMemPoolEntry.hash)
    (packageOf pool s.asm.inBlock iter) (eraseAdded s.mapModifiedTx (sortForBlock _))
    (fun m member => by
      rw [eraseAdded_eq, List.mem_filter, decide_eq_true_eq, sorted] at member
      exact ⟨oinv.outside m member.1, member.2⟩)
    (by rw [eraseAdded_eq]; exact oinv.nodup.sublist ((List.filter_sublist _).map _))
    (fun it member d descendant outside => ⟨descendant_outside appended descendant
      (fun same => outside (same ▸ List.mem_map_of_mem _ member)) (packageOf_fresh fresh it member),
      outside⟩)
  refine ⟨fun m member => ?_, updated.2, oinv.cursor⟩
  simp only [commit_asm, addPackage_eq, List.mem_append, sorted, not_or]
  exact updated.1 m member

theorem OverlayInv.next {s next : PackageLoop} (inv : LoopInv pool s) (oinv : OverlayInv pool s)
    (outcome : iterate c pool s = .continue next ∨ iterate c pool s = .exit next) :
    OverlayInv pool next := by
  rcases iterate_cases outcome with ⟨it, rest, cursor, rfl⟩ | ⟨-, -, rfl⟩ |
    ⟨iter, aggregates, fUsingModified, mi, candidate, fresh, considered⟩
  · exact oinv.frame rfl (by simp [cursor]) (List.Sublist.refl _)
  · exact oinv
  · have shorter : mi.length ≤ s.mi.length := by
      cases candidate with
      | raw cursor _ => simp [cursor]
      | modified _ => exact le_refl _
    have shifted : OverlayInv pool { s with mi := mi } := oinv.frame rfl shorter (List.Sublist.refl _)
    rcases considered with rfl | rfl | ⟨-, -, rfl⟩
    · exact shifted.frame (by simp) (by simp) (dropCandidate_sublist _ _ _)
    · exact shifted.frame (by simp) (by simp) (dropCandidate_sublist _ _ _)
    · exact shifted.commit (inv.frame rfl (candidate.present inv).2 fun _ member => member) fresh

theorem Reachable.overlayInv {asm : BlockAssembler} {nHeight : Nat} {nLockTimeCutoff : Int}
    {s : PackageLoop} (reach : Reachable c pool (asm.beginBlock nHeight nLockTimeCutoff) s) :
    OverlayInv pool s := by
  induction reach with
  | init => exact overlayInv_initial asm nHeight nLockTimeCutoff
  | step reach outcome oinv => exact oinv.next reach.loopInv (.inl outcome)

theorem iterate_ne_assertFailure {s : PackageLoop} (oinv : OverlayInv pool s) :
    iterate c pool s ≠ .assertFailure := fun failed => by
  obtain ⟨iter, aggregates, fUsingModified, mi, candidate, included⟩ := iterate_assertFailure failed
  cases candidate with
  | raw _ skip =>
      simp only [skipMapTxEntry, Bool.or_eq_false_iff, decide_eq_false_iff_not] at skip
      exact skip.1.2 included
  | modified member => exact oinv.outside _ member included

theorem addPackageTxs_never_asserts (c : Consensus) (pool : TxMemPool) (asm : BlockAssembler)
    (nHeight : Nat) (nLockTimeCutoff : Int) (s : PackageLoop)
    (reach : Reachable c pool (asm.beginBlock nHeight nLockTimeCutoff) s) :
    iterate c pool s ≠ .assertFailure ∧
    (s.mi = [] → s.mapModifiedTx ≠ [] →
      ∃ m ∈ s.mapModifiedTx, iterate c pool s = considerPackage c pool s m.iter m.aggregates true) ∧
    (∀ m ∈ s.mapModifiedTx, m.iter.hash ∉ s.asm.inBlock) ∧
    s.asm.inBlock.Nodup := by
  have oinv := reach.overlayInv
  obtain ⟨entries, appended⟩ := reach.loopInv.appended
  refine ⟨iterate_ne_assertFailure oinv, fun exhausted nonempty => ?_, oinv.outside,
    appended.inBlock ▸ appended.nodup⟩
  obtain ⟨first, rest, overlay⟩ := List.exists_cons_of_ne_nil nonempty
  have best : bestModified s.mapModifiedTx =
      some (rest.foldl (fun best x => if x.score.before best.score then x else best) first) := by
    rw [overlay]
    rfl
  exact ⟨_, bestModified_mem best, by simp only [iterate, exhausted, best]⟩

theorem sibling_never_asserts :
    Reachable scenarioConsensus siblingPool siblingStart siblingCursorDone ∧
    iterate scenarioConsensus siblingPool siblingCursorDone ≠ .assertFailure ∧
    (siblingCursorDone.mi = [] → siblingCursorDone.mapModifiedTx ≠ [] →
      ∃ m ∈ siblingCursorDone.mapModifiedTx,
        iterate scenarioConsensus siblingPool siblingCursorDone =
          considerPackage scenarioConsensus siblingPool siblingCursorDone m.iter m.aggregates true) ∧
    (∀ m ∈ siblingCursorDone.mapModifiedTx, m.iter.hash ∉ siblingCursorDone.asm.inBlock) ∧
    siblingCursorDone.asm.inBlock.Nodup :=
  ⟨sibling_cursor_done,
    addPackageTxs_never_asserts scenarioConsensus siblingPool _ 1 0 _ sibling_cursor_done⟩

end Overlay

section Measure

variable {c : Consensus} {pool : TxMemPool}

-- The measure the loop descends on, lexicographically: the mempool entries outside the block,
-- then the cursor positions left plus the overlay's entries.
def loopMeasure (pool : TxMemPool) (s : PackageLoop) : Nat × Nat :=
  ((pool.mapTx.filter fun e => e.hash ∉ s.asm.inBlock).length, s.mi.length + s.mapModifiedTx.length)

theorem length_filter_outside_lt {inBlock added : List Nat} {x : TxMemPoolEntry}
    (present : x ∈ pool.mapTx) (fresh : x.hash ∉ inBlock) (taken : x.hash ∈ added) :
    (pool.mapTx.filter fun e => e.hash ∉ inBlock ++ added).length <
      (pool.mapTx.filter fun e => e.hash ∉ inBlock).length := by
  have split : (pool.mapTx.filter fun e => e.hash ∉ inBlock ++ added) =
      (pool.mapTx.filter fun e => e.hash ∉ inBlock).filter fun e => e.hash ∉ added := by
    rw [List.filter_filter]
    congr 1
    funext e
    simp [Bool.and_comm]
  rw [split]
  exact List.length_filter_lt_length_iff_exists.2
    ⟨x, List.mem_filter.2 ⟨present, decide_eq_true fresh⟩, by simpa using taken⟩

theorem Candidate.drop_shorter {s : PackageLoop} {iter : TxMemPoolEntry}
    {aggregates : PackageAggregates} {fUsingModified : Bool} {mi : List TxMemPoolEntry}
    (candidate : Candidate s iter aggregates fUsingModified mi) :
    mi.length + ({ s with mi := mi }.dropCandidate iter fUsingModified).mapModifiedTx.length <
      s.mi.length + s.mapModifiedTx.length := by
  cases candidate with
  | raw cursor _ => simp [PackageLoop.dropCandidate, cursor]
  | @modified m member =>
      have erased : (s.mapModifiedTx.filter fun x => x.iter.hash ≠ m.iter.hash).length <
          s.mapModifiedTx.length := List.length_filter_lt_length_iff_exists.2 ⟨m, member, by simp⟩
      simp only [PackageLoop.dropCandidate, if_true, eraseModified]
      omega

theorem iterate_measure_lt {s next : PackageLoop} (inv : LoopInv pool s)
    (step : iterate c pool s = .continue next) :
    Prod.Lex (· < ·) (· < ·) (loopMeasure pool next) (loopMeasure pool s) := by
  rw [Prod.lex_def]
  rcases iterate_cases (.inl step) with ⟨it, rest, cursor, rfl⟩ | ⟨cursor, overlay, rfl⟩ |
    ⟨iter, aggregates, fUsingModified, mi, candidate, fresh, considered⟩
  · refine .inr ⟨rfl, ?_⟩
    simp only [loopMeasure, cursor, List.length_cons]
    omega
  · simp [iterate, cursor, overlay, bestModified] at step
  · rcases considered with rfl | rfl | ⟨-, -, rfl⟩
    iterate 2 exact .inr ⟨by simp only [loopMeasure, dropCandidate_asm],
      by simpa only [loopMeasure, dropCandidate_mi] using candidate.drop_shorter⟩
    · refine .inl ?_
      simp only [loopMeasure, commit_asm, addPackage_eq]
      exact length_filter_outside_lt (candidate.present inv).1 fresh
        (List.mem_map_of_mem _ (mem_sortForBlock.2 (mem_packageOf.2 (.inl rfl))))

theorem loopMeasure_bound {s : PackageLoop} (inv : LoopInv pool s) (oinv : OverlayInv pool s) :
    (loopMeasure pool s).1 ≤ pool.mapTx.length ∧ (loopMeasure pool s).2 ≤ 2 * pool.mapTx.length := by
  have overlay : s.mapModifiedTx.length ≤ pool.mapTx.length := by
    have inPool : (s.mapModifiedTx.map fun m => m.iter.hash) ⊆ pool.mapTx.map TxMemPoolEntry.hash :=
      fun h member => by
        obtain ⟨m, mMember, rfl⟩ := List.mem_map.1 member
        exact List.mem_map_of_mem _ (inv.overlay m mMember).1
    simpa using (oinv.nodup.subperm inPool).length_le
  have cursor := oinv.cursor
  exact ⟨List.length_filter_le _ _, by simp only [loopMeasure]; omega⟩

theorem runLoop_some {asm : BlockAssembler} {nHeight : Nat} {nLockTimeCutoff : Int} :
    ∀ (fuel : Nat) (s : PackageLoop), Reachable c pool (asm.beginBlock nHeight nLockTimeCutoff) s →
      (loopMeasure pool s).1 * (2 * pool.mapTx.length + 1) + (loopMeasure pool s).2 < fuel →
      ∃ final, runLoop c pool fuel s = some final
  | 0, _, _, within => absurd within (Nat.not_lt_zero _)
  | fuel + 1, s, reach, within => by
      rw [runLoop]
      rcases outcome : iterate c pool s with next | last | _
      · have descent := iterate_measure_lt reach.loopInv outcome
        have reachNext := reach.step outcome
        have bound := loopMeasure_bound reachNext.loopInv reachNext.overlayInv
        refine runLoop_some fuel next reachNext ?_
        rw [Prod.lex_def] at descent
        rcases descent with fewer | ⟨same, shorter⟩
        · have weighted := Nat.mul_le_mul_right (2 * pool.mapTx.length + 1) fewer
          rw [Nat.succ_mul] at weighted
          omega
        · rw [same]
          omega
      · exact ⟨last, rfl⟩
      · exact absurd outcome (iterate_ne_assertFailure reach.overlayInv)

theorem addPackageTxs_terminates (c : Consensus) (pool : TxMemPool) (asm : BlockAssembler)
    (nHeight : Nat) (nLockTimeCutoff : Int) :
    (∀ s next, Reachable c pool (asm.beginBlock nHeight nLockTimeCutoff) s →
      iterate c pool s = .continue next →
        Prod.Lex (· < ·) (· < ·) (loopMeasure pool next) (loopMeasure pool s)) ∧
    ∃ final, addPackageTxs c pool (asm.beginBlock nHeight nLockTimeCutoff) = some final := by
  refine ⟨fun s next reach step => iterate_measure_lt reach.loopInv step,
    runLoop_some _ _ .init ?_⟩
  obtain ⟨first, second⟩ := loopMeasure_bound (@loopInv_initial pool asm nHeight nLockTimeCutoff)
    (overlayInv_initial asm nHeight nLockTimeCutoff)
  have weighted := Nat.mul_le_mul_right (2 * pool.mapTx.length + 1) first
  have expand : loopFuel pool =
      pool.mapTx.length * (2 * pool.mapTx.length + 1) + 3 * pool.mapTx.length + 2 := by
    unfold loopFuel
    ring
  omega

end Measure

theorem addPackageTxs_exit (c : Consensus) (pool : TxMemPool) (asm : BlockAssembler)
    (final : PackageLoop) (done : addPackageTxs c pool asm = some final) :
    (final.mi = [] ∧ final.mapModifiedTx = []) ∨
    (final.nConsecutiveFailed > maxConsecutiveFailures ∧
      final.asm.nBlockWeight > final.asm.nBlockMaxWeight - 4000) := by
  obtain ⟨last, -, exit⟩ := runLoop_exit _ .init done
  rcases iterate_selects exit with ⟨_, _, _, _, step⟩ | ⟨cursor, overlay, step⟩ |
    ⟨_, _, _, _, _, step⟩ | ⟨_, _, _, step⟩
  · cases step
  · cases step
    exact .inl ⟨cursor, overlay⟩
  · exact .inr (considerPackage_exit step.symm)
  · exact .inr (considerPackage_exit step.symm)

end Veil.Miner
