import VeilMiner.Termination

/- The feerates of the packages addPackageTxs commits (miner.cpp, lines 594-700). A candidate is
   taken only when nothing else selectable ranks above it: the cursor runs in ancestor-score
   order, and the overlay's best is compared with the cursor's head. Between two commits
   nothing new becomes selectable, so the next package's feerate is at most the last one's,
   except for the overlay entries the last commit itself created or lowered: a descendant of
   a package just included sheds that package's share of its aggregates and can rank above
   it. The feerate order is fees over size compared across; it is transitive because every
   size the loop compares is positive. -/

set_option autoImplicit false

namespace Veil.Miner

-- The feerate of `a` is at most that of `b`: fees over size, compared across.
def PackageAggregates.feerateLe (a b : PackageAggregates) : Prop := a.fees * b.size ≤ b.fees * a.size

instance (a b : PackageAggregates) : Decidable (a.feerateLe b) :=
  inferInstanceAs (Decidable (a.fees * b.size ≤ b.fees * a.size))

def PackageAggregates.score (a : PackageAggregates) (hash : Nat) : AncestorScore := ⟨a.fees, a.size, hash⟩

theorem TxMemPoolEntry.score_eq (e : TxMemPoolEntry) : e.score = e.aggregates.score e.hash := rfl

theorem ModifiedEntry.score_eq (m : ModifiedEntry) : m.score = m.aggregates.score m.iter.hash := rfl

section Order

variable {a b d : PackageAggregates}

theorem feerateLe_refl (a : PackageAggregates) : a.feerateLe a := le_refl _

theorem feerateLe_trans (positive : 0 < b.size) (ab : a.feerateLe b) (bd : b.feerateLe d)
    (aPos : 0 < a.size) (dPos : 0 < d.size) : a.feerateLe d := by
  unfold PackageAggregates.feerateLe at *
  refine le_of_mul_le_mul_right ?_ positive
  calc a.fees * d.size * b.size = a.fees * b.size * d.size := by ring
    _ ≤ b.fees * a.size * d.size := mul_le_mul_of_nonneg_right ab dPos.le
    _ = b.fees * d.size * a.size := by ring
    _ ≤ d.fees * b.size * a.size := mul_le_mul_of_nonneg_right bd aPos.le
    _ = d.fees * a.size * b.size := by ring

theorem feerateLe_of_not_before {x y : Nat} (later : (a.score x).before (b.score y) = false) :
    a.feerateLe b := by
  simp only [AncestorScore.before, PackageAggregates.score] at later
  unfold PackageAggregates.feerateLe
  split at later <;> simp at later <;> linarith

theorem feerateLe_of_before {x y : Nat} (earlier : (a.score x).before (b.score y) = true) :
    b.feerateLe a := by
  simp only [AncestorScore.before, PackageAggregates.score] at earlier
  unfold PackageAggregates.feerateLe
  split at earlier <;> simp at earlier <;> linarith

end Order

section Positive

variable {pool : TxMemPool}

theorem aggregates_size_pos {e : TxMemPoolEntry} (present : e ∈ pool.mapTx) : 0 < e.aggregates.size := by
  have exact := pool.size_exact e present
  have own := pool.size_pos e present
  simp only [TxMemPoolEntry.aggregates]
  omega

theorem Shaped.size_pos {allowed : Nat → Prop} {m : ModifiedEntry} (shaped : Shaped pool allowed m) :
    0 < m.aggregates.size := by
  obtain ⟨present, excluded, -, components⟩ := shaped
  have size := components .size
  have rest : 0 ≤ (((ancestorsIn pool.mapTx m.iter).filter fun a => a.hash ∉ excluded).map
      Component.size.ofEntry).sum :=
    List.sum_nonneg fun x member => by
      obtain ⟨e, -, rfl⟩ := List.mem_map.1 member
      exact Component.ofEntry_nonneg (by decide) e
  have own := pool.size_pos m.iter present
  simp only [Component.ofAggregates, remainingSum, Component.ofEntry] at size rest
  omega

end Positive

def Descending (x y : PackageAggregates) : Prop := y.feerateLe x

section Sorted

variable {pool : TxMemPool}

theorem orderedInsert_descending {x : TxMemPoolEntry} :
    ∀ {l : List TxMemPoolEntry}, (∀ e ∈ x :: l, 0 < e.aggregates.size) →
      (l.map TxMemPoolEntry.aggregates).Pairwise Descending →
      ((l.orderedInsert (fun a b => a.score.before b.score = true) x).map
        TxMemPoolEntry.aggregates).Pairwise Descending
  | [], _, _ => List.pairwise_singleton _ _
  | y :: l, positive, sorted => by
      rw [List.map_cons, List.pairwise_cons] at sorted
      simp only [List.orderedInsert]
      split
      · rename_i earlier
        rw [x.score_eq, y.score_eq] at earlier
        have above : Descending x.aggregates y.aggregates := feerateLe_of_before earlier
        rw [List.map_cons, List.map_cons, List.pairwise_cons, ← List.map_cons]
        refine ⟨fun z member => ?_, List.pairwise_cons.2 sorted⟩
        rcases List.mem_cons.1 member with rfl | later
        · exact above
        · obtain ⟨e, eMember, rfl⟩ := List.mem_map.1 later
          exact feerateLe_trans (positive y (by simp)) (sorted.1 _ later) above
            (positive e (by simp [eMember])) (positive x (by simp))
      · rename_i later
        rw [x.score_eq, y.score_eq, Bool.not_eq_true] at later
        rw [List.map_cons, List.pairwise_cons]
        refine ⟨fun z member => ?_, orderedInsert_descending
          (fun e member => positive e (List.mem_cons.2 ((List.mem_cons.1 member).imp id
            (List.mem_cons_of_mem y)))) sorted.2⟩
        obtain ⟨e, eMember, rfl⟩ := List.mem_map.1 member
        rcases (List.mem_orderedInsert _).1 eMember with rfl | old
        · exact feerateLe_of_not_before later
        · exact sorted.1 _ (List.mem_map_of_mem _ old)

theorem insertionSort_descending :
    ∀ (l : List TxMemPoolEntry), (∀ e ∈ l, 0 < e.aggregates.size) →
      ((l.insertionSort fun a b => a.score.before b.score = true).map
        TxMemPoolEntry.aggregates).Pairwise Descending
  | [], _ => List.Pairwise.nil
  | x :: l, positive => orderedInsert_descending
      (fun e member => positive e ((List.mem_cons.1 member).elim (· ▸ List.mem_cons_self x l)
        fun sorted => List.mem_cons_of_mem x ((List.mem_insertionSort _).1 sorted)))
      (insertionSort_descending l fun e member => positive e (List.mem_cons_of_mem x member))

theorem byAncestorScore_descending (pool : TxMemPool) :
    ((byAncestorScore pool).map TxMemPoolEntry.aggregates).Pairwise Descending :=
  insertionSort_descending pool.mapTx fun _ => aggregates_size_pos

end Sorted

theorem foldl_best_mem_cons (rest : List ModifiedEntry) (start : ModifiedEntry) :
    rest.foldl (fun best x => if x.score.before best.score then x else best) start ∈ start :: rest :=
  (foldl_best_mem rest start).elim (fun same => same.symm ▸ List.mem_cons_self start rest)
    (List.mem_cons_of_mem start)

theorem foldl_best_max : ∀ (rest : List ModifiedEntry) (start : ModifiedEntry),
    (∀ m ∈ start :: rest, 0 < m.aggregates.size) →
    ∀ m ∈ start :: rest, m.aggregates.feerateLe
      (rest.foldl (fun best x => if x.score.before best.score then x else best) start).aggregates
  | [], start, _, m, member => List.mem_singleton.1 member ▸ feerateLe_refl _
  | y :: rest, start, positive, m, member => by
      have better : ∀ x ∈ [start, y],
          x.aggregates.feerateLe (if y.score.before start.score then y else start).aggregates := by
        rw [y.score_eq, start.score_eq]
        split
        · simp [feerateLe_refl, feerateLe_of_before ‹_›]
        · simp [feerateLe_refl, feerateLe_of_not_before (Bool.eq_false_iff.2 ‹_›)]
      have chosen : (if y.score.before start.score then y else start) ∈ start :: y :: rest := by
        split <;> simp
      have shorter : ∀ x ∈ (if y.score.before start.score then y else start) :: rest,
          x ∈ start :: y :: rest := fun x member =>
        (List.mem_cons.1 member).elim (· ▸ chosen) fun later => by simp [later]
      have ih := foldl_best_max rest _ fun x member => positive x (shorter x member)
      rw [List.foldl_cons]
      by_cases pair : m ∈ [start, y]
      · exact feerateLe_trans (positive _ chosen) (better m pair) (ih _ (List.mem_cons_self _ _))
          (positive m member) (positive _ (shorter _ (foldl_best_mem_cons _ _)))
      · simp only [List.mem_cons, List.mem_singleton, not_or] at member pair
        exact ih m (List.mem_cons_of_mem _ (member.resolve_left pair.1 |>.resolve_left pair.2.1))

theorem bestModified_max {mapModifiedTx : List ModifiedEntry} {best : ModifiedEntry}
    (positive : ∀ m ∈ mapModifiedTx, 0 < m.aggregates.size) (found : bestModified mapModifiedTx = some best) :
    ∀ m ∈ mapModifiedTx, m.aggregates.feerateLe best.aggregates := by
  cases mapModifiedTx with
  | nil => cases found
  | cons start rest =>
      cases found
      exact foldl_best_max rest start positive

section Untouched

variable {pool : TxMemPool}

theorem updateDescendant_untouched (added : List Nat) (it : TxMemPoolEntry)
    (acc : List ModifiedEntry × Nat) (d : TxMemPoolEntry) {m : ModifiedEntry}
    (member : m ∈ (updateDescendant added it acc d).1) (other : m.iter.hash ≠ d.hash) : m ∈ acc.1 := by
  unfold updateDescendant at member
  split at member
  · exact member
  split at member
  · obtain ⟨x, xMember, updated⟩ := List.mem_map.1 member
    split at updated
    · exact absurd (updated ▸ ‹x.iter.hash = d.hash›) other
    · exact updated ▸ xMember
  · rcases List.mem_cons.1 member with rfl | old
    · exact absurd rfl other
    · exact old

theorem fold_updateDescendant_untouched (added : List Nat) (it : TxMemPoolEntry) {m : ModifiedEntry} :
    ∀ (descs : List TxMemPoolEntry) (acc : List ModifiedEntry × Nat),
      m ∈ (descs.foldl (updateDescendant added it) acc).1 → (∀ d ∈ descs, m.iter.hash ≠ d.hash) →
      m ∈ acc.1
  | [], _, member, _ => member
  | d :: rest, acc, member, other =>
      updateDescendant_untouched added it acc d
        (fold_updateDescendant_untouched added it rest _ member fun d' later =>
          other d' (List.mem_cons_of_mem d later))
        (other d (List.mem_cons_self d rest))

theorem fold_updatePackages_untouched (added : List Nat) {m : ModifiedEntry} :
    ∀ (todo : List TxMemPoolEntry) (acc : List ModifiedEntry × Nat),
      m ∈ (todo.foldl (fun acc it => (calculateDescendants pool it).foldl
        (updateDescendant added it) acc) acc).1 →
      (∀ it ∈ todo, ∀ d ∈ calculateDescendants pool it, m.iter.hash ≠ d.hash) → m ∈ acc.1
  | [], _, member, _ => member
  | it :: rest, acc, member, other =>
      fold_updateDescendant_untouched added it _ acc
        (fold_updatePackages_untouched added rest _ member fun it' later =>
          other it' (List.mem_cons_of_mem it later))
        (other it (List.mem_cons_self it rest))

theorem updatePackagesForAdded_untouched (alreadyAdded : List TxMemPoolEntry)
    (mapModifiedTx : List ModifiedEntry) {m : ModifiedEntry}
    (member : m ∈ (updatePackagesForAdded pool alreadyAdded mapModifiedTx).1)
    (other : ∀ it ∈ alreadyAdded, ∀ d ∈ calculateDescendants pool it, m.iter.hash ≠ d.hash) :
    m ∈ mapModifiedTx :=
  fold_updatePackages_untouched _ alreadyAdded (mapModifiedTx, 0) member other

theorem commit_untouched {s : PackageLoop} {iter : TxMemPoolEntry} {aggregates : PackageAggregates}
    {m : ModifiedEntry}
    (member : m ∈ (s.commit pool (packageOf pool s.asm.inBlock iter) aggregates).mapModifiedTx)
    (present : m.iter ∈ pool.mapTx)
    (outside : m.iter.hash ∉ (sortForBlock (packageOf pool s.asm.inBlock iter)).map TxMemPoolEntry.hash)
    (independent : ∀ h ∈ (sortForBlock (packageOf pool s.asm.inBlock iter)).map TxMemPoolEntry.hash,
      h ∉ m.iter.ancestors) :
    m ∈ s.mapModifiedTx := by
  rw [commit_mapModifiedTx] at member
  have kept := updatePackagesForAdded_untouched _ _ member fun it itMember d desc same => ?_
  · rw [eraseAdded_eq] at kept
    exact List.mem_of_mem_filter kept
  · obtain ⟨dPresent, related⟩ := List.mem_filter.1 desc
    have inPackage := List.mem_map_of_mem TxMemPoolEntry.hash (mem_sortForBlock.2 itMember)
    cases pool.eq_of_hash_eq present dPresent same
    rcases of_decide_eq_true related with self | ancestor
    · exact outside (self ▸ inPackage)
    · exact independent it.hash inPackage ancestor

end Untouched

-- No transaction of `p2` descends from a transaction of `p1`.
def Selected.Independent (pool : TxMemPool) (p1 p2 : Selected) : Prop :=
  ∀ x ∈ pool.mapTx, x.hash ∈ p2.members → ∀ h ∈ p1.members, h ∉ x.ancestors

instance (pool : TxMemPool) (p1 p2 : Selected) : Decidable (p1.Independent pool p2) :=
  inferInstanceAs (Decidable (∀ x ∈ pool.mapTx, x.hash ∈ p2.members → ∀ h ∈ p1.members, h ∉ x.ancestors))

structure FeerateInv (pool : TxMemPool) (s : PackageLoop) : Prop where
  cursor : (s.mi.map TxMemPoolEntry.aggregates).Pairwise Descending
  positive : ∀ p ∈ s.committed, 0 < p.aggregates.size
  chain : s.committed.Chain' fun p1 p2 =>
    p1.Independent pool p2 → p2.aggregates.feerateLe p1.aggregates
  rawBelow : ∀ p ∈ s.committed.getLast?, ∀ e ∈ s.mi, e.aggregates.feerateLe p.aggregates
  modifiedBelow : ∀ p ∈ s.committed.getLast?, ∀ m ∈ s.mapModifiedTx,
    (∀ h ∈ p.members, h ∉ m.iter.ancestors) → m.aggregates.feerateLe p.aggregates

def RanksFirst (mi : List TxMemPoolEntry) (mapModifiedTx : List ModifiedEntry)
    (aggregates : PackageAggregates) : Prop :=
  (∀ e ∈ mi, e.aggregates.feerateLe aggregates) ∧ ∀ m ∈ mapModifiedTx, m.aggregates.feerateLe aggregates

section Invariant

variable {c : Consensus} {pool : TxMemPool}

theorem LoopInv.cursor_pos {s : PackageLoop} (loop : LoopInv pool s) :
    ∀ e ∈ s.mi, 0 < e.aggregates.size :=
  fun e member => aggregates_size_pos (loop.cursor e member)

theorem LoopInv.overlay_pos {s : PackageLoop} (loop : LoopInv pool s) :
    ∀ m ∈ s.mapModifiedTx, 0 < m.aggregates.size :=
  fun m member => (loop.overlay m member).size_pos

theorem feerateInv_initial (asm : BlockAssembler) (nHeight : Nat) (nLockTimeCutoff : Int) :
    FeerateInv pool (initialLoop pool (asm.beginBlock nHeight nLockTimeCutoff)) :=
  ⟨byAncestorScore_descending pool, nofun, List.chain'_nil, nofun, nofun⟩

theorem FeerateInv.frame {s next : PackageLoop} (inv : FeerateInv pool s)
    (committed : next.committed = s.committed) (cursor : next.mi.Sublist s.mi)
    (overlay : ∀ m ∈ next.mapModifiedTx, m ∈ s.mapModifiedTx) : FeerateInv pool next := by
  obtain ⟨sorted, positive, chain, rawBelow, modifiedBelow⟩ := inv
  rw [← committed] at positive chain rawBelow modifiedBelow
  exact ⟨sorted.sublist (cursor.map _), positive, chain,
    fun p last e member => rawBelow p last e (cursor.subset member),
    fun p last m member => modifiedBelow p last m (overlay m member)⟩

theorem FeerateInv.below_head {s : PackageLoop} {h : TxMemPoolEntry} {rest : List TxMemPoolEntry}
    (inv : FeerateInv pool s) (cursor : s.mi = h :: rest) :
    ∀ e ∈ s.mi, e.aggregates.feerateLe h.aggregates := by
  have sorted := inv.cursor
  rw [cursor, List.map_cons, List.pairwise_cons] at sorted
  rw [cursor]
  intro e member
  rcases List.mem_cons.1 member with rfl | later
  · exact feerateLe_refl _
  · exact sorted.1 _ (List.mem_map_of_mem _ later)

theorem ranksFirst_head {s : PackageLoop} {it : TxMemPoolEntry} {rest : List TxMemPoolEntry}
    (inv : FeerateInv pool s) (loop : LoopInv pool s) (cursor : s.mi = it :: rest)
    (ranked : ∀ best, bestModified s.mapModifiedTx = some best → best.score.before it.score = false) :
    RanksFirst rest s.mapModifiedTx it.aggregates := by
  refine ⟨fun e member => inv.below_head cursor e (cursor ▸ List.mem_cons_of_mem it member),
    fun m member => ?_⟩
  obtain ⟨best, found⟩ : ∃ best, bestModified s.mapModifiedTx = some best :=
    Option.ne_none_iff_exists'.1 fun none => by simp [bestModified_eq_none.1 none] at member
  have notBefore := ranked best found
  rw [best.score_eq, it.score_eq] at notBefore
  exact feerateLe_trans (loop.overlay_pos best (bestModified_mem found))
    (bestModified_max loop.overlay_pos found m member) (feerateLe_of_not_before notBefore)
    (loop.overlay_pos m member) (loop.cursor_pos it (cursor ▸ List.mem_cons_self it rest))

theorem ranksFirst_best {s : PackageLoop} {best : ModifiedEntry} (inv : FeerateInv pool s)
    (loop : LoopInv pool s) (found : bestModified s.mapModifiedTx = some best)
    (ranked : ∀ it rest, s.mi = it :: rest → best.score.before it.score = true) :
    RanksFirst s.mi s.mapModifiedTx best.aggregates := by
  refine ⟨fun e member => ?_, bestModified_max loop.overlay_pos found⟩
  obtain ⟨h, rest, cursor⟩ := List.exists_cons_of_ne_nil (List.ne_nil_of_mem member)
  have earlier := ranked h rest cursor
  rw [best.score_eq, h.score_eq] at earlier
  exact feerateLe_trans (loop.cursor_pos h (cursor ▸ List.mem_cons_self h rest))
    (inv.below_head cursor e member) (feerateLe_of_before earlier) (loop.cursor_pos e member)
    (loop.overlay_pos best (bestModified_mem found))

theorem FeerateInv.commit {s : PackageLoop} {mi : List TxMemPoolEntry} {iter : TxMemPoolEntry}
    {aggregates : PackageAggregates} (inv : FeerateInv pool s)
    (loop : LoopInv pool ({ s with mi := mi }.commit pool (packageOf pool s.asm.inBlock iter) aggregates))
    (oinv : OverlayInv pool ({ s with mi := mi }.commit pool (packageOf pool s.asm.inBlock iter) aggregates))
    (cursor : mi.Sublist s.mi) (positive : 0 < aggregates.size)
    (first : RanksFirst mi s.mapModifiedTx aggregates)
    (belowLast : ∀ p ∈ s.committed.getLast?, p.Independent pool
      ⟨(sortForBlock (packageOf pool s.asm.inBlock iter)).map TxMemPoolEntry.hash, aggregates⟩ →
        aggregates.feerateLe p.aggregates) :
    FeerateInv pool ({ s with mi := mi }.commit pool (packageOf pool s.asm.inBlock iter) aggregates) := by
  obtain ⟨sorted, wasPositive, chain, -, -⟩ := inv
  refine ⟨sorted.sublist (cursor.map _), ?_, chain.append (List.chain'_singleton _) ?_, ?_, ?_⟩
  · simp only [commit_committed, List.mem_append, List.mem_singleton]
    rintro p (old | rfl)
    · exact wasPositive p old
    · exact positive
  · rintro p last q head
    cases head
    exact belowLast p last
  · simp only [commit_committed, List.getLast?_concat, Option.mem_def, Option.some.injEq]
    rintro p rfl e member
    exact first.1 e member
  · simp only [commit_committed, List.getLast?_concat, Option.mem_def, Option.some.injEq]
    rintro p rfl m member independent
    have outside := oinv.outside m member
    simp only [commit_asm, addPackage_eq, List.mem_append, not_or] at outside
    exact first.2 m (@commit_untouched pool { s with mi := mi } iter aggregates m member
      (loop.overlay m member).1 outside.2 independent)

theorem FeerateInv.next {s next : PackageLoop} (inv : FeerateInv pool s) (loop : LoopInv pool s)
    (loop' : LoopInv pool next) (oinv' : OverlayInv pool next)
    (outcome : iterate c pool s = .continue next ∨ iterate c pool s = .exit next) :
    FeerateInv pool next := by
  have dropped : ∀ {s' : PackageLoop} {iter : TxMemPoolEntry} {b : Bool},
      ∀ m ∈ (s'.dropCandidate iter b).mapModifiedTx, m ∈ s'.mapModifiedTx :=
    fun m member => mem_dropCandidate_mapModifiedTx _ _ _ member
  rcases iterate_selects (rfl : iterate c pool s = _) with ⟨it, rest, cursor, -, step⟩ |
    ⟨-, -, step⟩ | ⟨it, rest, cursor, -, ranked, step⟩ | ⟨best, found, ranked, step⟩ <;>
    rw [step] at outcome
  · obtain rfl : next = { s with mi := rest } := by simpa [eq_comm] using outcome
    exact inv.frame rfl (cursor ▸ List.sublist_cons_self it rest) fun _ member => member
  · obtain rfl : next = s := by simpa [eq_comm] using outcome
    exact inv
  · obtain ⟨-, considered⟩ := considerPackage_cases outcome
    have head : it ∈ s.mi := cursor ▸ List.mem_cons_self it rest
    have shifted : FeerateInv pool { s with mi := rest } :=
      inv.frame rfl (cursor ▸ List.sublist_cons_self it rest) fun _ member => member
    rcases considered with rfl | rfl | ⟨-, -, rfl⟩
    · exact shifted.frame (by simp) (by simp) dropped
    · exact shifted.frame (by simp) (by simp) dropped
    · exact inv.commit loop' oinv' (cursor ▸ List.sublist_cons_self it rest) (loop.cursor_pos it head)
        (ranksFirst_head inv loop cursor ranked) fun p last _ => inv.rawBelow p last it head
  · obtain ⟨-, considered⟩ := considerPackage_cases outcome
    have bestMember := bestModified_mem found
    rcases considered with rfl | rfl | ⟨-, -, rfl⟩
    · exact inv.frame (by simp) (by simp) dropped
    · exact inv.frame (by simp) (by simp) dropped
    show FeerateInv pool ({ s with mi := s.mi }.commit pool _ _)
    exact inv.commit loop' oinv' (List.Sublist.refl _) (loop.overlay_pos best bestMember)
      (ranksFirst_best inv loop found ranked) fun p last independent =>
        inv.modifiedBelow p last best bestMember (independent best.iter
          (loop.overlay best bestMember).1
          (List.mem_map_of_mem _ (mem_sortForBlock.2 (by simp [packageOf]))))

theorem Reachable.feerateInv {asm : BlockAssembler} {nHeight : Nat} {nLockTimeCutoff : Int}
    {s : PackageLoop} (reach : Reachable c pool (asm.beginBlock nHeight nLockTimeCutoff) s) :
    FeerateInv pool s := by
  induction reach with
  | init => exact feerateInv_initial asm nHeight nLockTimeCutoff
  | step reach outcome inv =>
      exact inv.next reach.loopInv (reach.step outcome).loopInv (reach.step outcome).overlayInv
        (.inl outcome)

theorem Visited.feerateInv {asm : BlockAssembler} {nHeight : Nat} {nLockTimeCutoff : Int}
    {s : PackageLoop} (visited : Visited c pool (asm.beginBlock nHeight nLockTimeCutoff) s) :
    FeerateInv pool s := by
  cases visited with
  | running reach => exact reach.feerateInv
  | finished reach exit =>
      exact reach.feerateInv.next reach.loopInv (reach.loopInv.next (.inr exit))
        (reach.overlayInv.next reach.loopInv (.inr exit)) (.inr exit)

end Invariant

theorem addPackageTxs_feerate_nonincreasing (c : Consensus) (pool : TxMemPool)
    (asm : BlockAssembler) (nHeight : Nat) (nLockTimeCutoff : Int) (s : PackageLoop)
    (visited : Visited c pool (asm.beginBlock nHeight nLockTimeCutoff) s) :
    s.committed.Chain' fun p1 p2 => p1.Independent pool p2 → p2.aggregates.feerateLe p1.aggregates :=
  visited.feerateInv.chain

theorem scenario_feerate_nonincreasing :
    ∃ final, addPackageTxs scenarioConsensus scenarioPool scenarioStart = some final ∧
      final.committed = [⟨[1, 2], ⟨200, 300, 0⟩⟩, ⟨[3], ⟨100, 50, 0⟩⟩] ∧
      Selected.Independent scenarioPool ⟨[1, 2], ⟨200, 300, 0⟩⟩ ⟨[3], ⟨100, 50, 0⟩⟩ ∧
      Visited scenarioConsensus scenarioPool scenarioStart final ∧
      final.committed.Chain' fun p1 p2 =>
        p1.Independent scenarioPool p2 → p2.aggregates.feerateLe p1.aggregates :=
  have done := (Option.some_get (by decide :
    (addPackageTxs scenarioConsensus scenarioPool scenarioStart).isSome)).symm
  have visited := addPackageTxs_visited done
  ⟨_, done, by decide, by decide, visited,
    addPackageTxs_feerate_nonincreasing scenarioConsensus scenarioPool _ 1 0 _ visited⟩

theorem sibling_feerate_rises :
    (addPackageTxs scenarioConsensus siblingPool siblingStart).map (·.committed) =
      some [⟨[11, 12], ⟨200, 1100, 0⟩⟩, ⟨[13], ⟨100, 900, 0⟩⟩] ∧
    ¬ (⟨100, 900, 0⟩ : PackageAggregates).feerateLe ⟨200, 1100, 0⟩ := by
  decide

end Veil.Miner
