import VeilMiner.Package

/- The invariant of addPackageTxs's loop, from the state CreateNewBlock starts it in: the
   cursor and the overlay only hold mempool entries, the overlay's aggregates have the shape
   of `Shaped`, and the block holds a list of mempool entries that AddToBlock's counters and
   vectors describe and that lists every ancestor of an entry before the entry. -/

set_option autoImplicit false

namespace Veil.Miner

variable {c : Consensus} {pool : TxMemPool}

structure Appended (pool : TxMemPool) (asm : BlockAssembler) (entries : List TxMemPoolEntry) :
    Prop where
  present : ∀ e ∈ entries, e ∈ pool.mapTx
  vtx : asm.vtx = none :: entries.map (some ∘ TxMemPoolEntry.tx)
  inBlock : asm.inBlock = entries.map TxMemPoolEntry.hash
  weight : asm.nBlockWeight = 4000 + (entries.map (·.nTxWeight)).sum
  sigOps : asm.nBlockSigOpsCost = 400 + (entries.map (·.sigOpCost)).sum
  vTxFees : asm.vTxFees = -1 :: entries.map (·.nFee)
  vTxSigOpsCost : asm.vTxSigOpsCost = -1 :: entries.map fun e => (e.sigOpCost : Int)
  nFees : asm.nFees = (entries.map (·.nFee)).sum
  nodup : (entries.map TxMemPoolEntry.hash).Nodup
  linearized : Linearized pool entries

theorem appended_commit {asm : BlockAssembler} {entries : List TxMemPoolEntry}
    {iter : TxMemPoolEntry} (appended : Appended pool asm entries) (present : iter ∈ pool.mapTx)
    (fresh : iter.hash ∉ asm.inBlock) :
    Appended pool (addPackage asm (sortForBlock (packageOf pool asm.inBlock iter)))
      (entries ++ sortForBlock (packageOf pool asm.inBlock iter)) := by
  have members : ∀ x ∈ packageOf pool asm.inBlock iter, x ∈ pool.mapTx := packageOf_present present
  have nodup : ((entries ++ sortForBlock (packageOf pool asm.inBlock iter)).map TxMemPoolEntry.hash).Nodup := by
    rw [List.map_append, List.nodup_append]
    refine ⟨appended.nodup, ((sortForBlock_perm _).map _).nodup_iff.2 (packageOf_hashes_nodup present),
      fun h old new => ?_⟩
    obtain ⟨x, xMember, rfl⟩ := List.mem_map.1 new
    exact packageOf_fresh fresh x (mem_sortForBlock.1 xMember) (appended.inBlock ▸ old)
  rw [addPackage_eq]
  refine ⟨fun e member => ?_, ?_, ?_, ?_, ?_, ?_, ?_, ?_, nodup, ?_⟩
  · rcases List.mem_append.1 member with old | new
    · exact appended.present e old
    · exact members e (mem_sortForBlock.1 new)
  all_goals simp only [appended.vtx, appended.inBlock, appended.weight, appended.sigOps,
    appended.vTxFees, appended.vTxSigOpsCost, appended.nFees, List.map_append, List.sum_append,
    List.cons_append]
  all_goals try omega
  exact linearized_commit appended.linearized appended.present present

structure LoopInv (pool : TxMemPool) (s : PackageLoop) : Prop where
  cursor : ∀ e ∈ s.mi, e ∈ pool.mapTx
  appended : ∃ entries, Appended pool s.asm entries
  overlay : ∀ m ∈ s.mapModifiedTx, Shaped pool (· ∈ s.asm.inBlock) m

theorem loopInv_initial (asm : BlockAssembler) (nHeight : Nat) (nLockTimeCutoff : Int) :
    LoopInv pool (initialLoop pool (asm.beginBlock nHeight nLockTimeCutoff)) := by
  refine ⟨fun e member => mem_byAncestorScore.1 member, ⟨[], ?_⟩, ?_⟩
  · exact ⟨by simp, rfl, rfl, rfl, rfl, rfl, rfl, rfl, List.nodup_nil,
      fun before x after split => by simp at split⟩
  · simp [initialLoop, BlockAssembler.beginBlock, BlockAssembler.resetBlock,
      updatePackagesForAdded]

theorem Candidate.present {s : PackageLoop} {iter : TxMemPoolEntry} {aggregates : PackageAggregates}
    {fUsingModified : Bool} {mi : List TxMemPoolEntry} (inv : LoopInv pool s)
    (candidate : Candidate s iter aggregates fUsingModified mi) :
    iter ∈ pool.mapTx ∧ ∀ e ∈ mi, e ∈ pool.mapTx := by
  cases candidate with
  | raw cursor _ =>
      exact ⟨inv.cursor _ (cursor ▸ List.mem_cons_self _ _),
        fun e member => inv.cursor e (cursor ▸ List.mem_cons_of_mem _ member)⟩
  | modified member => exact ⟨(inv.overlay _ member).1, inv.cursor⟩

theorem LoopInv.frame {s next : PackageLoop} (inv : LoopInv pool s) (asm : next.asm = s.asm)
    (cursor : ∀ e ∈ next.mi, e ∈ pool.mapTx)
    (overlay : ∀ m ∈ next.mapModifiedTx, m ∈ s.mapModifiedTx) : LoopInv pool next :=
  ⟨cursor, asm ▸ inv.appended, fun m member => asm ▸ inv.overlay m (overlay m member)⟩

theorem LoopInv.commit {s : PackageLoop} {iter : TxMemPoolEntry} {aggregates : PackageAggregates}
    (inv : LoopInv pool s) (present : iter ∈ pool.mapTx) (fresh : iter.hash ∉ s.asm.inBlock) :
    LoopInv pool (s.commit pool (packageOf pool s.asm.inBlock iter) aggregates) := by
  obtain ⟨entries, appended⟩ := inv.appended
  refine ⟨inv.cursor, ⟨_, appended_commit appended present fresh⟩, ?_⟩
  intro m member
  simp only [commit_mapModifiedTx, commit_asm] at member ⊢
  refine (updatePackagesForAdded_shaped (packageOf_present present)
    (packageOf_hashes_nodup present) (packageOf_fresh fresh) (fun m member => ?_) m member).mono
    fun h inBlock => ?_
  · rw [eraseAdded_eq] at member
    exact inv.overlay m (List.mem_of_mem_filter member)
  · simp only [addPackage_eq, List.mem_append, List.mem_map] at inBlock ⊢
    rcases inBlock with old | ⟨x, xMember, rfl⟩
    · exact .inl old
    · exact .inr ⟨x, mem_sortForBlock.2 xMember, rfl⟩

theorem LoopInv.next {s next : PackageLoop} (inv : LoopInv pool s)
    (outcome : iterate c pool s = .continue next ∨ iterate c pool s = .exit next) :
    LoopInv pool next := by
  rcases iterate_cases outcome with ⟨it, rest, cursor, rfl⟩ | ⟨-, -, rfl⟩ |
    ⟨iter, aggregates, fUsingModified, mi, candidate, fresh, considered⟩
  · exact inv.frame rfl (fun e member => inv.cursor e (cursor ▸ List.mem_cons_of_mem it member))
      fun _ member => member
  · exact inv
  · obtain ⟨present, cursor⟩ := candidate.present inv
    rcases considered with rfl | rfl | ⟨-, -, rfl⟩
    iterate 2
      exact inv.frame (by simp only [dropCandidate_asm]) (by simpa only [dropCandidate_mi] using cursor)
        fun _ member => mem_dropCandidate_mapModifiedTx { s with mi := mi } iter _ member
    · have shifted : LoopInv pool { s with mi := mi } := inv.frame rfl cursor fun _ member => member
      exact shifted.commit present fresh

theorem Reachable.loopInv {asm : BlockAssembler} {nHeight : Nat} {nLockTimeCutoff : Int}
    {s : PackageLoop} (reach : Reachable c pool (asm.beginBlock nHeight nLockTimeCutoff) s) :
    LoopInv pool s := by
  induction reach with
  | init => exact loopInv_initial asm nHeight nLockTimeCutoff
  | step _ outcome inv => exact inv.next (.inl outcome)

theorem Visited.loopInv {asm : BlockAssembler} {nHeight : Nat} {nLockTimeCutoff : Int}
    {s : PackageLoop} (visited : Visited c pool (asm.beginBlock nHeight nLockTimeCutoff) s) :
    LoopInv pool s := by
  cases visited with
  | running reach => exact reach.loopInv
  | finished reach exit => exact reach.loopInv.next (.inr exit)

end Veil.Miner
