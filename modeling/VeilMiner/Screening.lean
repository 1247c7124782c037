import VeilMiner.Mempool

/- The zerocoin screening pass of CreateNewBlock (miner.cpp, lines 202-275). It walks the
   selected transactions in block order, puts a transaction in setDuplicate when one of its
   serials, or then one of its pubcoins, was seen before or is already in the chain, and adds
   the network-reward outputs of the others to the reserve. A serial or pubcoin is recorded as
   seen as soon as it passes, so a transaction rejected on a later hash has recorded the hashes
   before it. What the pass keeps is sound (no two kept transactions share a serial or a
   pubcoin, none is in the chain), but it is not the first-come filter in which a rejected
   transaction records nothing. -/

set_option autoImplicit false

namespace Veil.Miner

-- A std::set<uint256> in its iteration order, which is uint256's operator<: memcmp of the bytes.
def hashSet (hashes : List Nat) : List Nat :=
  hashes.dedup.insertionSort fun a b => uint256Key a ≤ uint256Key b

def txSerialHashes (tx : Transaction) : List Nat :=
  if tx.isZerocoinSpend then hashSet tx.serialHashes else []

def txPubcoinHashes (tx : Transaction) : List Nat :=
  if tx.isZerocoinMint then hashSet tx.pubcoinHashes else []

-- IsSerialInBlockchain at the template's height and IsPubcoinInBlockchain at the tip.
structure ZerocoinChain where
  isSerialInBlockchain : Nat → Bool
  isPubcoinInBlockchain : Nat → Bool

-- The loop over one transaction's serials (lines 226-242) or pubcoins (lines 247-263): the
-- set after the loop, and whether the transaction is to be removed.
def screenHashes (inBlockchain : Nat → Bool) (seen : List Nat) : List Nat → List Nat × Bool
  | [] => (seen, false)
  | h :: rest =>
      if h ∈ seen ∨ inBlockchain h = true then (seen, true)
      else screenHashes inBlockchain (h :: seen) rest

def rewardPaid (rewardScript : Script) (tx : Transaction) : Int :=
  ((tx.vpout.filter fun o => o.standard ∧ o.scriptPubKey = rewardScript).map (·.value)).sum

structure Screening where
  setSerials : List Nat
  setPubcoins : List Nat
  setDuplicate : List Nat
  nNetworkRewardReserve : Int
deriving DecidableEq, Repr

def Screening.screenTx (chain : ZerocoinChain) (rewardScript : Script) (st : Screening)
    (tx : Transaction) : Screening :=
  match screenHashes chain.isSerialInBlockchain st.setSerials (txSerialHashes tx) with
  | (setSerials, true) => { st with setSerials := setSerials, setDuplicate := tx.hash :: st.setDuplicate }
  | (setSerials, false) =>
      match screenHashes chain.isPubcoinInBlockchain st.setPubcoins (txPubcoinHashes tx) with
      | (setPubcoins, true) =>
          { st with setSerials := setSerials, setPubcoins := setPubcoins,
                    setDuplicate := tx.hash :: st.setDuplicate }
      | (setPubcoins, false) =>
          { st with setSerials := setSerials, setPubcoins := setPubcoins,
                    nNetworkRewardReserve := st.nNetworkRewardReserve + rewardPaid rewardScript tx }

def screenBlock (chain : ZerocoinChain) (rewardScript : Script) (vtx : List (Option Transaction))
    (st : Screening) : Screening :=
  vtx.foldl (fun st slot => match slot with
    | none => st
    | some tx => st.screenTx chain rewardScript tx) st

-- What the rebuild of lines 277-298 keeps of setDuplicate's verdicts.
def keptTransactions (vtx : List (Option Transaction)) (setDuplicate : List Nat) :
    List Transaction :=
  vtx.reduceOption.filter fun tx => tx.hash ∉ setDuplicate

def ScreenedApart (a b : Transaction) : Prop :=
  (txSerialHashes a).Disjoint (txSerialHashes b) ∧ (txPubcoinHashes a).Disjoint (txPubcoinHashes b)

def NotInChain (chain : ZerocoinChain) (tx : Transaction) : Prop :=
  (∀ h ∈ txSerialHashes tx, chain.isSerialInBlockchain h = false) ∧
    ∀ h ∈ txPubcoinHashes tx, chain.isPubcoinInBlockchain h = false

instance (a b : Transaction) : Decidable (ScreenedApart a b) :=
  inferInstanceAs (Decidable ((∀ h ∈ txSerialHashes a, h ∉ txSerialHashes b) ∧
    ∀ h ∈ txPubcoinHashes a, h ∉ txPubcoinHashes b))

instance (chain : ZerocoinChain) (tx : Transaction) : Decidable (NotInChain chain tx) :=
  inferInstanceAs (Decidable ((∀ h ∈ txSerialHashes tx, chain.isSerialInBlockchain h = false) ∧
    ∀ h ∈ txPubcoinHashes tx, chain.isPubcoinInBlockchain h = false))

theorem hashSet_nodup (hashes : List Nat) : (hashSet hashes).Nodup :=
  (List.perm_insertionSort _ _).nodup_iff.2 (List.nodup_dedup _)

theorem txSerialHashes_nodup (tx : Transaction) : (txSerialHashes tx).Nodup := by
  unfold txSerialHashes
  split
  · exact hashSet_nodup _
  · exact List.nodup_nil

theorem txPubcoinHashes_nodup (tx : Transaction) : (txPubcoinHashes tx).Nodup := by
  unfold txPubcoinHashes
  split
  · exact hashSet_nodup _
  · exact List.nodup_nil

section Screen

variable (inBlockchain : Nat → Bool)

theorem screenHashes_mono (seen hashes : List Nat) : seen ⊆ (screenHashes inBlockchain seen hashes).1 := by
  induction hashes generalizing seen with
  | nil => exact List.Subset.refl _
  | cons h rest ih =>
      unfold screenHashes
      split
      · exact List.Subset.refl _
      · exact (List.subset_cons_self h seen).trans (ih _)

theorem screenHashes_pass {seen hashes : List Nat}
    (pass : (screenHashes inBlockchain seen hashes).2 = false) :
    ∀ h ∈ hashes, h ∉ seen ∧ inBlockchain h = false ∧ h ∈ (screenHashes inBlockchain seen hashes).1 := by
  induction hashes generalizing seen with
  | nil => simp
  | cons h rest ih =>
      by_cases stop : h ∈ seen ∨ inBlockchain h = true
      · simp [screenHashes, stop] at pass
      · simp only [screenHashes, if_neg stop] at pass ⊢
        simp only [not_or, Bool.not_eq_true] at stop
        intro x member
        rcases List.mem_cons.1 member with rfl | later
        · exact ⟨stop.1, stop.2, screenHashes_mono inBlockchain _ rest (List.mem_cons_self x seen)⟩
        · obtain ⟨unseen, unspent, recorded⟩ := ih pass x later
          exact ⟨fun old => unseen (List.mem_cons_of_mem h old), unspent, recorded⟩

theorem screenHashes_fresh {seen hashes : List Nat} (distinct : hashes.Nodup)
    (fresh : ∀ h ∈ hashes, h ∉ seen ∧ inBlockchain h = false) :
    screenHashes inBlockchain seen hashes = (hashes.reverse ++ seen, false) := by
  induction hashes generalizing seen with
  | nil => rfl
  | cons h rest ih =>
      rw [List.nodup_cons] at distinct
      obtain ⟨unseen, unspent⟩ := fresh h (List.mem_cons_self h rest)
      have restFresh : ∀ x ∈ rest, x ∉ h :: seen ∧ inBlockchain x = false := fun x member =>
        ⟨List.not_mem_cons_of_ne_of_not_mem (fun same => distinct.1 (same ▸ member))
          (fresh x (List.mem_cons_of_mem h member)).1, (fresh x (List.mem_cons_of_mem h member)).2⟩
      simp only [screenHashes, unseen, unspent, Bool.false_eq_true, or_self, if_false]
      rw [ih distinct.2 restFresh, List.reverse_cons, List.append_assoc, List.singleton_append]

end Screen

section Step

variable (chain : ZerocoinChain) (rewardScript : Script)

theorem screenTx_cases (st : Screening) (tx : Transaction) :
    st.setSerials ⊆ (st.screenTx chain rewardScript tx).setSerials ∧
    st.setPubcoins ⊆ (st.screenTx chain rewardScript tx).setPubcoins ∧
    (((st.screenTx chain rewardScript tx).setDuplicate = tx.hash :: st.setDuplicate ∧
        (st.screenTx chain rewardScript tx).nNetworkRewardReserve = st.nNetworkRewardReserve) ∨
      ((st.screenTx chain rewardScript tx).setDuplicate = st.setDuplicate ∧
        (st.screenTx chain rewardScript tx).nNetworkRewardReserve =
          st.nNetworkRewardReserve + rewardPaid rewardScript tx ∧
        NotInChain chain tx ∧
        (∀ h ∈ txSerialHashes tx, h ∉ st.setSerials ∧ h ∈ (st.screenTx chain rewardScript tx).setSerials) ∧
        ∀ h ∈ txPubcoinHashes tx,
          h ∉ st.setPubcoins ∧ h ∈ (st.screenTx chain rewardScript tx).setPubcoins)) := by
  have serials := screenHashes_mono chain.isSerialInBlockchain st.setSerials (txSerialHashes tx)
  have pubcoins := screenHashes_mono chain.isPubcoinInBlockchain st.setPubcoins (txPubcoinHashes tx)
  unfold Screening.screenTx
  rcases serialsRun : screenHashes chain.isSerialInBlockchain st.setSerials (txSerialHashes tx) with
    ⟨setSerials, _ | _⟩ <;> rw [serialsRun] at serials
  · have serialsOk := screenHashes_pass chain.isSerialInBlockchain (by rw [serialsRun])
    rw [serialsRun] at serialsOk
    rcases pubcoinsRun : screenHashes chain.isPubcoinInBlockchain st.setPubcoins (txPubcoinHashes tx) with
      ⟨setPubcoins, _ | _⟩ <;> rw [pubcoinsRun] at pubcoins
    · have pubcoinsOk := screenHashes_pass chain.isPubcoinInBlockchain (by rw [pubcoinsRun])
      rw [pubcoinsRun] at pubcoinsOk
      exact ⟨serials, pubcoins, .inr ⟨rfl, rfl,
        ⟨fun h member => (serialsOk h member).2.1, fun h member => (pubcoinsOk h member).2.1⟩,
        fun h member => ⟨(serialsOk h member).1, (serialsOk h member).2.2⟩,
        fun h member => ⟨(pubcoinsOk h member).1, (pubcoinsOk h member).2.2⟩⟩⟩
    · exact ⟨serials, pubcoins, .inl ⟨rfl, rfl⟩⟩
  · exact ⟨serials, List.Subset.refl _, .inl ⟨rfl, rfl⟩⟩

theorem screenTx_fresh {st : Screening} {tx : Transaction} (unspent : NotInChain chain tx)
    (serials : ∀ h ∈ txSerialHashes tx, h ∉ st.setSerials)
    (pubcoins : ∀ h ∈ txPubcoinHashes tx, h ∉ st.setPubcoins) :
    st.screenTx chain rewardScript tx =
      { st with setSerials := (txSerialHashes tx).reverse ++ st.setSerials,
                setPubcoins := (txPubcoinHashes tx).reverse ++ st.setPubcoins,
                nNetworkRewardReserve := st.nNetworkRewardReserve + rewardPaid rewardScript tx } := by
  unfold Screening.screenTx
  rw [screenHashes_fresh _ (txSerialHashes_nodup tx) fun h member => ⟨serials h member, unspent.1 h member⟩,
    screenHashes_fresh _ (txPubcoinHashes_nodup tx) fun h member => ⟨pubcoins h member, unspent.2 h member⟩]

theorem screenTx_mono (st : Screening) (tx : Transaction) :
    st.setSerials ⊆ (st.screenTx chain rewardScript tx).setSerials ∧
    st.setPubcoins ⊆ (st.screenTx chain rewardScript tx).setPubcoins ∧
    st.setDuplicate ⊆ (st.screenTx chain rewardScript tx).setDuplicate := by
  obtain ⟨serials, pubcoins, ⟨same, -⟩ | ⟨same, -⟩⟩ := screenTx_cases chain rewardScript st tx <;>
    rw [same]
  · exact ⟨serials, pubcoins, List.subset_cons_self _ _⟩
  · exact ⟨serials, pubcoins, List.Subset.refl _⟩

theorem screenTx_kept {st : Screening} {tx : Transaction}
    (kept : tx.hash ∉ (st.screenTx chain rewardScript tx).setDuplicate) :
    NotInChain chain tx ∧
    (∀ h ∈ txSerialHashes tx, h ∉ st.setSerials ∧ h ∈ (st.screenTx chain rewardScript tx).setSerials) ∧
    ∀ h ∈ txPubcoinHashes tx, h ∉ st.setPubcoins ∧ h ∈ (st.screenTx chain rewardScript tx).setPubcoins := by
  obtain ⟨-, -, ⟨rejected, -⟩ | ⟨-, -, passed⟩⟩ := screenTx_cases chain rewardScript st tx
  · exact absurd (rejected ▸ List.mem_cons_self _ _) kept
  · exact passed

theorem screenBlock_mono (vtx : List (Option Transaction)) (st : Screening) :
    st.setSerials ⊆ (screenBlock chain rewardScript vtx st).setSerials ∧
    st.setPubcoins ⊆ (screenBlock chain rewardScript vtx st).setPubcoins ∧
    st.setDuplicate ⊆ (screenBlock chain rewardScript vtx st).setDuplicate := by
  induction vtx generalizing st with
  | nil => exact ⟨List.Subset.refl _, List.Subset.refl _, List.Subset.refl _⟩
  | cons slot rest ih =>
      cases slot with
      | none => exact ih st
      | some tx =>
          obtain ⟨serials, pubcoins, duplicates⟩ := screenTx_mono chain rewardScript st tx
          obtain ⟨serials', pubcoins', duplicates'⟩ := ih (st.screenTx chain rewardScript tx)
          exact ⟨serials.trans serials', pubcoins.trans pubcoins', duplicates.trans duplicates'⟩

theorem screenBlock_cons_none (rest : List (Option Transaction)) (st : Screening) :
    screenBlock chain rewardScript (none :: rest) st = screenBlock chain rewardScript rest st := rfl

theorem screenBlock_cons_some (tx : Transaction) (rest : List (Option Transaction)) (st : Screening) :
    screenBlock chain rewardScript (some tx :: rest) st =
      screenBlock chain rewardScript rest (st.screenTx chain rewardScript tx) := rfl

theorem keptTransactions_cons_none (rest : List (Option Transaction)) (setDuplicate : List Nat) :
    keptTransactions (none :: rest) setDuplicate = keptTransactions rest setDuplicate := by
  simp [keptTransactions, List.reduceOption_cons_of_none]

theorem keptTransactions_cons_some (tx : Transaction) (rest : List (Option Transaction))
    (setDuplicate : List Nat) :
    keptTransactions (some tx :: rest) setDuplicate =
      if tx.hash ∈ setDuplicate then keptTransactions rest setDuplicate
      else tx :: keptTransactions rest setDuplicate := by
  by_cases member : tx.hash ∈ setDuplicate <;>
    simp [keptTransactions, List.reduceOption_cons_of_some, member]

theorem screenBlock_sound (vtx : List (Option Transaction)) (st : Screening) :
    (keptTransactions vtx (screenBlock chain rewardScript vtx st).setDuplicate).Pairwise ScreenedApart ∧
    ∀ tx ∈ keptTransactions vtx (screenBlock chain rewardScript vtx st).setDuplicate,
      NotInChain chain tx ∧ (∀ h ∈ txSerialHashes tx, h ∉ st.setSerials) ∧
        ∀ h ∈ txPubcoinHashes tx, h ∉ st.setPubcoins := by
  induction vtx generalizing st with
  | nil => simp [keptTransactions]
  | cons slot rest ih =>
      cases slot with
      | none => simpa only [keptTransactions_cons_none] using ih st
      | some tx =>
          let next := st.screenTx chain rewardScript tx
          obtain ⟨pairwise, each⟩ := ih next
          obtain ⟨serialsGrow, pubcoinsGrow, -⟩ := screenTx_mono chain rewardScript st tx
          have later : ∀ x ∈ keptTransactions rest (screenBlock chain rewardScript rest next).setDuplicate,
              NotInChain chain x ∧ (∀ h ∈ txSerialHashes x, h ∉ st.setSerials) ∧
                ∀ h ∈ txPubcoinHashes x, h ∉ st.setPubcoins := fun x member =>
            ⟨(each x member).1, fun h inX old => (each x member).2.1 h inX (serialsGrow old),
              fun h inX old => (each x member).2.2 h inX (pubcoinsGrow old)⟩
          rw [screenBlock_cons_some, keptTransactions_cons_some]
          split
          · exact ⟨pairwise, later⟩
          · rename_i kept
            obtain ⟨unspent, serials, pubcoins⟩ :=
              screenTx_kept chain rewardScript fun old => kept ((screenBlock_mono chain rewardScript rest next).2.2 old)
            refine ⟨List.pairwise_cons.2 ⟨fun x member => ⟨?_, ?_⟩, pairwise⟩, ?_⟩
            · exact fun h inTx inX => (each x member).2.1 h inX (serials h inTx).2
            · exact fun h inTx inX => (each x member).2.2 h inX (pubcoins h inTx).2
            · intro x member
              rcases List.mem_cons.1 member with rfl | inRest
              · exact ⟨unspent, fun h inX => (serials h inX).1, fun h inX => (pubcoins h inX).1⟩
              · exact later x inRest

theorem screenBlock_apart (vtx : List (Option Transaction)) (st : Screening)
    (apart : vtx.reduceOption.Pairwise ScreenedApart)
    (unspent : ∀ tx ∈ vtx.reduceOption, NotInChain chain tx)
    (fresh : ∀ tx ∈ vtx.reduceOption, (∀ h ∈ txSerialHashes tx, h ∉ st.setSerials) ∧
      ∀ h ∈ txPubcoinHashes tx, h ∉ st.setPubcoins) :
    (screenBlock chain rewardScript vtx st).setDuplicate = st.setDuplicate ∧
      (screenBlock chain rewardScript vtx st).nNetworkRewardReserve =
        st.nNetworkRewardReserve + (vtx.reduceOption.map (rewardPaid rewardScript)).sum := by
  induction vtx generalizing st with
  | nil => exact ⟨rfl, by simp [screenBlock]⟩
  | cons slot rest ih =>
      cases slot with
      | none =>
          simp only [List.reduceOption_cons_of_none] at apart unspent fresh ⊢
          exact ih st apart unspent fresh
      | some tx =>
          simp only [List.reduceOption_cons_of_some, List.pairwise_cons, List.mem_cons,
            forall_eq_or_imp] at apart unspent fresh ⊢
          have passed := screenTx_fresh chain rewardScript unspent.1 fresh.1.1 fresh.1.2
          have later : ∀ x ∈ rest.reduceOption,
              (∀ h ∈ txSerialHashes x, h ∉ (st.screenTx chain rewardScript tx).setSerials) ∧
                ∀ h ∈ txPubcoinHashes x, h ∉ (st.screenTx chain rewardScript tx).setPubcoins := by
            rw [passed]
            exact fun x member => ⟨fun h inX inSet => (List.mem_append.1 inSet).elim
                (fun inTx => (apart.1 x member).1 (List.mem_reverse.1 inTx) inX)
                ((fresh.2 x member).1 h inX),
              fun h inX inSet => (List.mem_append.1 inSet).elim
                (fun inTx => (apart.1 x member).2 (List.mem_reverse.1 inTx) inX)
                ((fresh.2 x member).2 h inX)⟩
          obtain ⟨duplicates, reserve⟩ := ih _ apart.2 unspent.2 later
          rw [screenBlock_cons_some, duplicates, reserve, passed]
          exact ⟨rfl, by rw [List.map_cons, List.sum_cons, Int.add_assoc]⟩

theorem screening_kept_sound (vtx : List (Option Transaction)) (nNetworkRewardReserve : Int) :
    (keptTransactions vtx
      (screenBlock chain rewardScript vtx ⟨[], [], [], nNetworkRewardReserve⟩).setDuplicate).Pairwise
        ScreenedApart ∧
    ∀ tx ∈ keptTransactions vtx
      (screenBlock chain rewardScript vtx ⟨[], [], [], nNetworkRewardReserve⟩).setDuplicate,
        NotInChain chain tx :=
  let sound := screenBlock_sound chain rewardScript vtx ⟨[], [], [], nNetworkRewardReserve⟩
  ⟨sound.1, fun tx member => (sound.2 tx member).1⟩

end Step

section Reserve

variable (chain : ZerocoinChain) (rewardScript : Script)

theorem screenBlock_setDuplicate_subset (txs : List Transaction) (st : Screening) :
    (screenBlock chain rewardScript (txs.map some) st).setDuplicate ⊆
      st.setDuplicate ++ txs.map Transaction.hash := by
  induction txs generalizing st with
  | nil => simp [screenBlock]
  | cons tx rest ih =>
      rw [List.map_cons, screenBlock_cons_some]
      refine (ih _).trans fun h member => ?_
      have earlier : h ∈ tx.hash :: st.setDuplicate ∨ h ∈ rest.map Transaction.hash := by
        rcases List.mem_append.1 member with old | later
        · rcases (screenTx_cases chain rewardScript st tx).2.2 with ⟨same, -⟩ | ⟨same, -⟩ <;> rw [same] at old
          · exact .inl old
          · exact .inl (List.mem_cons_of_mem _ old)
        · exact .inr later
      simp only [List.map_cons, List.mem_append, List.mem_cons] at earlier ⊢
      tauto

theorem screenBlock_reserve (txs : List Transaction) (st : Screening)
    (distinct : (txs.map Transaction.hash).Nodup) (fresh : ∀ tx ∈ txs, tx.hash ∉ st.setDuplicate) :
    (screenBlock chain rewardScript (txs.map some) st).nNetworkRewardReserve =
      st.nNetworkRewardReserve + ((txs.filter fun tx =>
        tx.hash ∉ (screenBlock chain rewardScript (txs.map some) st).setDuplicate).map
          (rewardPaid rewardScript)).sum := by
  induction txs generalizing st with
  | nil => simp [screenBlock]
  | cons tx rest ih =>
      simp only [List.map_cons, List.nodup_cons, List.mem_map, not_exists, not_and] at distinct
      rw [List.map_cons, screenBlock_cons_some]
      have restFresh : ∀ x ∈ rest, x.hash ∉ (st.screenTx chain rewardScript tx).setDuplicate := by
        intro x member
        rcases (screenTx_cases chain rewardScript st tx).2.2 with ⟨same, -⟩ | ⟨same, -⟩ <;> rw [same]
        · exact List.not_mem_cons_of_ne_of_not_mem (fun equal => distinct.1 x member equal)
            (fresh x (List.mem_cons_of_mem tx member))
        · exact fresh x (List.mem_cons_of_mem tx member)
      rw [ih _ distinct.2 restFresh]
      have later := screenBlock_setDuplicate_subset chain rewardScript rest (st.screenTx chain rewardScript tx)
      rcases (screenTx_cases chain rewardScript st tx).2.2 with ⟨same, reserve⟩ | ⟨same, reserve, -⟩
      · have rejected : tx.hash ∈ (screenBlock chain rewardScript (rest.map some)
            (st.screenTx chain rewardScript tx)).setDuplicate :=
          (screenBlock_mono chain rewardScript _ _).2.2 (same ▸ List.mem_cons_self _ _)
        simp [rejected, reserve]
      · have kept : tx.hash ∉ (screenBlock chain rewardScript (rest.map some)
            (st.screenTx chain rewardScript tx)).setDuplicate := fun member => by
          rcases List.mem_append.1 (later member) with old | again
          · exact fresh tx (List.mem_cons_self _ _) (same ▸ old)
          · obtain ⟨x, xMember, equal⟩ := List.mem_map.1 again
            exact distinct.1 x xMember equal
        simp [kept, reserve, Int.add_assoc]

end Reserve

-- The first-come filter of the screening pass's design, to compare with lines 207-275.
structure FirstCome where
  serials : List Nat
  pubcoins : List Nat
  rejected : List Nat
deriving DecidableEq, Repr

def FirstCome.scan (chain : ZerocoinChain) (st : FirstCome) (tx : Transaction) : FirstCome :=
  if (txSerialHashes tx).any (fun h => chain.isSerialInBlockchain h || decide (h ∈ st.serials)) ||
      (txPubcoinHashes tx).any (fun h => chain.isPubcoinInBlockchain h || decide (h ∈ st.pubcoins)) then
    { st with rejected := tx.hash :: st.rejected }
  else
    { st with serials := txSerialHashes tx ++ st.serials, pubcoins := txPubcoinHashes tx ++ st.pubcoins }

def firstComeFilter (chain : ZerocoinChain) (vtx : List (Option Transaction)) : FirstCome :=
  vtx.foldl (fun st slot => match slot with
    | none => st
    | some tx => st.scan chain tx) ⟨[], [], []⟩

def spendTx (hash : Nat) (serials : List Nat) : Transaction :=
  ⟨hash, [⟨⟨0, 0⟩, [], false⟩], [], false, true, false, serials, []⟩

def serialTwoSpent : ZerocoinChain := ⟨(· == 2), fun _ => false⟩

theorem screenBlock_rejects_unconflicted_spend :
    (screenBlock serialTwoSpent [] [none, some (spendTx 11 [1, 2]), some (spendTx 12 [1])]
      ⟨[], [], [], 0⟩).setDuplicate = [12, 11] ∧
    (firstComeFilter serialTwoSpent [none, some (spendTx 11 [1, 2]), some (spendTx 12 [1])]).rejected =
      [11] := by
  decide

end Veil.Miner
