import VeilMiner.LoopFacts

/- The shape of a mapModifiedTx entry: each of its three aggregates is the entry's own
   contribution plus those of its ancestors outside a list `excluded` of hashes, and the
   hashes in `excluded` are of transactions already in the block. UpdatePackagesForAdded
   keeps this shape because it subtracts each included ancestor at most once per entry. -/

set_option autoImplicit false

namespace Veil.Miner

inductive Component where
  | size
  | fees
  | sigOps
deriving DecidableEq, Repr

def Component.ofEntry : Component → TxMemPoolEntry → Int
  | .size => fun e => e.nTxSize
  | .fees => fun e => e.nModFee
  | .sigOps => fun e => e.sigOpCost

def Component.ofAggregates : Component → PackageAggregates → Int
  | .size, a => a.size
  | .fees, a => a.fees
  | .sigOps, a => a.sigOps

def remainingSum (pool : TxMemPool) (entry : TxMemPoolEntry) (excluded : List Nat)
    (f : TxMemPoolEntry → Int) : Int :=
  f entry + (((ancestorsIn pool.mapTx entry).filter fun a => a.hash ∉ excluded).map f).sum

def Shaped (pool : TxMemPool) (allowed : Nat → Prop) (m : ModifiedEntry) : Prop :=
  m.iter ∈ pool.mapTx ∧ ∃ excluded : List Nat, (∀ h ∈ excluded, allowed h) ∧
    ∀ k : Component, k.ofAggregates m.aggregates = remainingSum pool m.iter excluded k.ofEntry

theorem Shaped.mono {pool : TxMemPool} {allowed wider : Nat → Prop} {m : ModifiedEntry}
    (shaped : Shaped pool allowed m) (widen : ∀ h, allowed h → wider h) : Shaped pool wider m :=
  ⟨shaped.1, shaped.2.elim fun excluded spec =>
    ⟨excluded, fun h member => widen h (spec.1 h member), spec.2⟩⟩

theorem Component.update (k : Component) (m : ModifiedEntry) (parent : TxMemPoolEntry) :
    k.ofAggregates (m.updateForParentInclusion parent).aggregates =
      k.ofAggregates m.aggregates - k.ofEntry parent := by
  cases k <;> rfl

theorem Component.ofEntry_nonneg {k : Component} (notFees : k ≠ .fees) (e : TxMemPoolEntry) :
    0 ≤ k.ofEntry e := by
  cases k with
  | fees => exact absurd rfl notFees
  | size | sigOps => simp only [Component.ofEntry]; omega

section Sums

variable (pool : TxMemPool)

theorem ancestorsIn_hashes_nodup (entry : TxMemPoolEntry) :
    ((ancestorsIn pool.mapTx entry).map TxMemPoolEntry.hash).Nodup :=
  pool.hashes_nodup.sublist ((List.filter_sublist _).map _)

theorem sum_filter_hash_ne (f : TxMemPoolEntry → Int) :
    ∀ {l : List TxMemPoolEntry} {x : TxMemPoolEntry}, (l.map TxMemPoolEntry.hash).Nodup →
      x ∈ l → ((l.filter fun a => a.hash ≠ x.hash).map f).sum = (l.map f).sum - f x
  | [], _, _, member => absurd member (List.not_mem_nil _)
  | y :: l, x, nodup, member => by
      rw [List.map_cons, List.nodup_cons] at nodup
      rw [List.filter_cons]
      by_cases same : y = x
      · subst same
        have keep : l.filter (fun a => a.hash ≠ y.hash) = l :=
          List.filter_eq_self.2 fun a ha =>
            decide_eq_true fun h => nodup.1 (h ▸ List.mem_map_of_mem TxMemPoolEntry.hash ha)
        simp only [ne_eq, not_true_eq_false, decide_False, Bool.false_eq_true, if_false, keep,
          List.map_cons, List.sum_cons]
        ring
      · have later : x ∈ l := (List.mem_cons.1 member).resolve_left (Ne.symm same)
        have apart : y.hash ≠ x.hash :=
          fun h => nodup.1 (h ▸ List.mem_map_of_mem TxMemPoolEntry.hash later)
        simp only [apart, ne_eq, not_false_eq_true, decide_True, if_true, List.map_cons,
          List.sum_cons, sum_filter_hash_ne f nodup.2 later]
        ring

theorem remainingSum_cons (f : TxMemPoolEntry → Int) {entry parent : TxMemPoolEntry}
    {excluded : List Nat} (present : parent ∈ pool.mapTx) (ancestor : parent.hash ∈ entry.ancestors)
    (fresh : parent.hash ∉ excluded) :
    remainingSum pool entry (parent.hash :: excluded) f = remainingSum pool entry excluded f - f parent := by
  have split : (ancestorsIn pool.mapTx entry).filter (fun a => a.hash ∉ parent.hash :: excluded) =
      ((ancestorsIn pool.mapTx entry).filter fun a => a.hash ∉ excluded).filter
        fun a => a.hash ≠ parent.hash := by
    rw [List.filter_filter]
    congr 1
    funext a
    simp [and_comm]
  have member : parent ∈ (ancestorsIn pool.mapTx entry).filter fun a => a.hash ∉ excluded := by
    simp [ancestorsIn, present, ancestor, fresh]
  have nodup : (((ancestorsIn pool.mapTx entry).filter fun a => a.hash ∉ excluded).map
      TxMemPoolEntry.hash).Nodup :=
    (ancestorsIn_hashes_nodup pool entry).sublist ((List.filter_sublist _).map _)
  rw [remainingSum, remainingSum, split, sum_filter_hash_ne f nodup member]
  ring

theorem sum_filter_le (f : TxMemPoolEntry → Int) (nonneg : ∀ x, 0 ≤ f x)
    (p q : TxMemPoolEntry → Bool) (imp : ∀ x, p x = true → q x = true) :
    ∀ l : List TxMemPoolEntry, ((l.filter p).map f).sum ≤ ((l.filter q).map f).sum
  | [] => le_refl 0
  | y :: l => by
      have rest := sum_filter_le f nonneg p q imp l
      have fy := nonneg y
      by_cases hp : p y = true
      · simp only [List.filter_cons, hp, imp y hp, if_true, List.map_cons, List.sum_cons]
        omega
      · simp only [Bool.not_eq_true] at hp
        cases hq : q y <;>
          simp only [List.filter_cons, hp, hq, Bool.false_eq_true, if_false, if_true,
            List.map_cons, List.sum_cons] <;>
          omega

theorem remainingSum_anti (f : TxMemPoolEntry → Int) (nonneg : ∀ x, 0 ≤ f x)
    (entry : TxMemPoolEntry) {excluded inBlock : List Nat}
    (included : ∀ h ∈ excluded, h ∈ inBlock) :
    remainingSum pool entry inBlock f ≤ remainingSum pool entry excluded f := by
  unfold remainingSum
  have := sum_filter_le f nonneg (fun a => decide (a.hash ∉ inBlock))
    (fun a => decide (a.hash ∉ excluded))
    (fun a outside => by
      simp only [decide_eq_true_eq] at outside ⊢
      exact fun h => outside (included _ h))
    (ancestorsIn pool.mapTx entry)
  linarith

theorem sum_packageOf (f : TxMemPoolEntry → Int) (inBlock : List Nat) (iter : TxMemPoolEntry) :
    ((packageOf pool inBlock iter).map f).sum = remainingSum pool iter inBlock f := by
  simp [packageOf, onlyUnconfirmed, calculateMemPoolAncestors, remainingSum, Int.add_comm]

theorem remainingSum_nil {entry : TxMemPoolEntry} (present : entry ∈ pool.mapTx) (k : Component) :
    remainingSum pool entry [] k.ofEntry = k.ofAggregates entry.aggregates := by
  have all : (ancestorsIn pool.mapTx entry).filter (fun a => a.hash ∉ ([] : List Nat)) =
      ancestorsIn pool.mapTx entry := List.filter_eq_self.2 fun a _ => by simp
  rw [remainingSum, all]
  cases k with
  | size =>
      simp [Component.ofEntry, Component.ofAggregates, TxMemPoolEntry.aggregates,
        pool.size_exact entry present, Function.comp_def]
  | fees =>
      simp [Component.ofEntry, Component.ofAggregates, TxMemPoolEntry.aggregates,
        pool.fees_exact entry present]
  | sigOps =>
      simp [Component.ofEntry, Component.ofAggregates, TxMemPoolEntry.aggregates,
        pool.sigops_exact entry present, Function.comp_def]

end Sums

section Update

variable {pool : TxMemPool}

theorem calculateDescendants_hashes_nodup (entry : TxMemPoolEntry) :
    ((calculateDescendants pool entry).map TxMemPoolEntry.hash).Nodup :=
  pool.hashes_nodup.sublist ((List.filter_sublist _).map _)

theorem Shaped.updateForParentInclusion {allowed : Nat → Prop} {m : ModifiedEntry}
    {it : TxMemPoolEntry} {excluded : List Nat} (present : m.iter ∈ pool.mapTx)
    (allowedOld : ∀ h ∈ excluded, allowed h)
    (sums : ∀ k : Component, k.ofAggregates m.aggregates = remainingSum pool m.iter excluded k.ofEntry)
    (parentPresent : it ∈ pool.mapTx) (ancestor : it.hash ∈ m.iter.ancestors)
    (fresh : it.hash ∉ excluded) (allowedParent : allowed it.hash) :
    Shaped pool allowed (m.updateForParentInclusion it) :=
  ⟨present, it.hash :: excluded, List.forall_mem_cons.2 ⟨allowedParent, allowedOld⟩, fun k => by
    rw [Component.update, sums k]
    exact (remainingSum_cons pool k.ofEntry parentPresent ancestor fresh).symm⟩

theorem updateDescendant_shaped (added : List Nat) {it d : TxMemPoolEntry} {D done : List Nat}
    {acc : List ModifiedEntry × Nat} (parentAdded : it.hash ∈ added) (parentFresh : it.hash ∉ D)
    (parentPresent : it ∈ pool.mapTx) (dDesc : d ∈ calculateDescendants pool it)
    (dFresh : d.hash ∉ done)
    (shaped : ∀ m ∈ acc.1, Shaped pool (fun h => h ∈ D ∨ (h = it.hash ∧ m.iter.hash ∈ done)) m) :
    ∀ m ∈ (updateDescendant added it acc d).1,
      Shaped pool (fun h => h ∈ D ∨ (h = it.hash ∧ m.iter.hash ∈ d.hash :: done)) m := by
  have dDesc := mem_calculateDescendants.1 dDesc
  have widen : ∀ m ∈ acc.1,
      Shaped pool (fun h => h ∈ D ∨ (h = it.hash ∧ m.iter.hash ∈ d.hash :: done)) m :=
    fun m member => (shaped m member).mono fun h allowed =>
      allowed.imp_right fun ⟨same, inDone⟩ => ⟨same, List.mem_cons_of_mem _ inDone⟩
  unfold updateDescendant
  split
  · exact widen
  rename_i notAdded
  have ancestor : it.hash ∈ d.ancestors :=
    dDesc.2.resolve_left fun same => notAdded (same ▸ parentAdded)
  split
  · intro m member
    obtain ⟨m0, member0, rfl⟩ := List.mem_map.1 member
    split
    · rename_i hit
      obtain ⟨present, excluded, allowed, sums⟩ := shaped m0 member0
      have clean : ∀ h ∈ excluded, h ∈ D := fun h member =>
        (allowed h member).resolve_right fun ⟨_, inDone⟩ => dFresh (hit ▸ inDone)
      exact Shaped.updateForParentInclusion present (fun h member => .inl (clean h member)) sums
        parentPresent (pool.eq_of_hash_eq present dDesc.1 hit ▸ ancestor)
        (fun inEx => parentFresh (clean _ inEx)) (.inr ⟨rfl, hit ▸ List.mem_cons_self _ _⟩)
    · exact widen m0 member0
  · intro m member
    rcases List.mem_cons.1 member with rfl | old
    · exact Shaped.updateForParentInclusion dDesc.1 (fun _ absent => absurd absent (List.not_mem_nil _))
        (fun k => (remainingSum_nil pool dDesc.1 k).symm) parentPresent ancestor
        (List.not_mem_nil _) (.inr ⟨rfl, List.mem_cons_self _ _⟩)
    · exact widen m old

theorem fold_updateDescendant (added : List Nat) (it : TxMemPoolEntry) (D : List Nat)
    (parentAdded : it.hash ∈ added) (parentFresh : it.hash ∉ D) (parentPresent : it ∈ pool.mapTx) :
    ∀ (descs : List TxMemPoolEntry) (acc : List ModifiedEntry × Nat) (done : List Nat),
      (∀ d ∈ descs, d ∈ calculateDescendants pool it) → (descs.map TxMemPoolEntry.hash).Nodup →
      (∀ d ∈ descs, d.hash ∉ done) →
      (∀ m ∈ acc.1, Shaped pool (fun h => h ∈ D ∨ (h = it.hash ∧ m.iter.hash ∈ done)) m) →
      ∀ m ∈ (descs.foldl (updateDescendant added it) acc).1, Shaped pool (· ∈ it.hash :: D) m
  | [], acc, done, _, _, _, shaped => fun m member =>
      (shaped m member).mono fun h allowed => by
        rcases allowed with inD | ⟨rfl, -⟩
        · exact List.mem_cons_of_mem _ inD
        · exact List.mem_cons_self _ _
  | d :: rest, acc, done, inDesc, nodup, notDone, shaped => by
      rw [List.map_cons, List.nodup_cons] at nodup
      refine fold_updateDescendant added it D parentAdded parentFresh parentPresent rest _
        (d.hash :: done) (fun x hx => inDesc x (List.mem_cons_of_mem d hx)) nodup.2
        (fun x hx same => ?_)
        (updateDescendant_shaped added parentAdded parentFresh parentPresent
          (inDesc d (List.mem_cons_self d rest)) (notDone d (List.mem_cons_self d rest)) shaped)
      rcases List.mem_cons.1 same with same | same
      · exact nodup.1 (same ▸ List.mem_map_of_mem TxMemPoolEntry.hash hx)
      · exact notDone x (List.mem_cons_of_mem d hx) same

theorem fold_updatePackages (added : List Nat) :
    ∀ (todo : List TxMemPoolEntry) (acc : List ModifiedEntry × Nat) (D : List Nat),
      (∀ it ∈ todo, it ∈ pool.mapTx ∧ it.hash ∈ added ∧ it.hash ∉ D) →
      (todo.map TxMemPoolEntry.hash).Nodup → (∀ m ∈ acc.1, Shaped pool (· ∈ D) m) →
      ∀ m ∈ (todo.foldl (fun acc it => (calculateDescendants pool it).foldl
          (updateDescendant added it) acc) acc).1,
        Shaped pool (· ∈ D ++ todo.map TxMemPoolEntry.hash) m
  | [], acc, D, _, _, shaped => by simpa only [List.foldl_nil, List.map_nil, List.append_nil] using shaped
  | it :: rest, acc, D, members, nodup, shaped => by
      rw [List.map_cons, List.nodup_cons] at nodup
      obtain ⟨present, inAdded, fresh⟩ := members it (List.mem_cons_self it rest)
      have inner := fold_updateDescendant added it D inAdded fresh present
        (calculateDescendants pool it) acc [] (fun _ h => h) (calculateDescendants_hashes_nodup it)
        (fun _ _ => List.not_mem_nil _)
        (fun m member => (shaped m member).mono fun _ h => .inl h)
      intro m member
      refine (fold_updatePackages added rest _ (it.hash :: D) (fun x hx => ?_) nodup.2 inner m
        member).mono fun h inD => ?_
      · obtain ⟨xPresent, xAdded, xFresh⟩ := members x (List.mem_cons_of_mem it hx)
        refine ⟨xPresent, xAdded, fun same => ?_⟩
        rcases List.mem_cons.1 same with same | same
        · exact nodup.1 (same ▸ List.mem_map_of_mem TxMemPoolEntry.hash hx)
        · exact xFresh same
      · simp only [List.mem_append, List.mem_cons, List.map_cons] at inD ⊢
        rcases inD with (same | old) | later
        · exact .inr (.inl same)
        · exact .inl old
        · exact .inr (.inr later)

theorem updatePackagesForAdded_shaped {alreadyAdded : List TxMemPoolEntry}
    {mapModifiedTx : List ModifiedEntry} {inBlock : List Nat}
    (present : ∀ it ∈ alreadyAdded, it ∈ pool.mapTx)
    (nodup : (alreadyAdded.map TxMemPoolEntry.hash).Nodup)
    (fresh : ∀ it ∈ alreadyAdded, it.hash ∉ inBlock)
    (shaped : ∀ m ∈ mapModifiedTx, Shaped pool (· ∈ inBlock) m) :
    ∀ m ∈ (updatePackagesForAdded pool alreadyAdded mapModifiedTx).1,
      Shaped pool (· ∈ inBlock ++ alreadyAdded.map TxMemPoolEntry.hash) m :=
  fold_updatePackages _ alreadyAdded _ inBlock
    (fun it member => ⟨present it member, List.mem_map_of_mem _ member, fresh it member⟩)
    nodup shaped

end Update

end Veil.Miner
