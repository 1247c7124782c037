import VeilMiner.Closure
import VeilMiner.Screening

/- CreateNewBlock (miner.cpp, lines 108-450). What it reads from the node (the tip, chain
   params, the budget schedule, the coins view pcoinsTip, the zerocoin index, the wallet, the
   clock, TestBlockValidity) is the record `Node`. The call is cut where the code is: the part
   up to addPackageTxs (`prepareBlock`), the screening pass, the rebuild of vtx, the coinbase,
   the coinstake and the header (`finishBlock`), and the checks that can still refuse the block.
   The Merkle roots, the accumulator checkpoints, the full-node proof and the Veil data hash are
   computed from the finished block by collaborators and read by nothing here, so they are
   left out. -/

set_option autoImplicit false

namespace Veil.Miner

structure BlockIndex where
  nHeight : Nat
  hash : Nat
  nTime : Int
  nMedianTimePast : Int
  nNetworkRewardReserve : Int
deriving DecidableEq, Repr

structure BlockRewards where
  nBlockReward : Int
  nFounderPayment : Int
  nLabPayment : Int
  nBudgetPayment : Int
deriving DecidableEq, Repr

structure Block where
  vtx : List (Option Transaction)
  fProofOfStake : Bool
  hashPrevBlock : Nat
  nTime : Int
  nBits : Nat
  nNonce : Nat
deriving DecidableEq, Repr

structure BlockTemplate where
  block : Block
  vTxFees : List Int
  vTxSigOpsCost : List Int
deriving DecidableEq, Repr

def Block.coinbase (block : Block) : Option Transaction := block.vtx.head?.join

-- `tip` is chainActive.Tip() for the whole call; `createCoinStake` answers for that tip and
-- the given nBits, with the coinstake and its time; `signBlock` is GetZerocoinKey and Sign.
structure Node where
  consensus : Consensus
  nBlockMaxWeight : Nat
  heightPoSStart : Nat
  maxPastBlockTime : Int
  maxNetworkReward : Int
  rewardScript : Script
  budgetScript : Script
  labScript : Script
  founderScript : Script
  getBlockRewards : Nat → BlockRewards
  zerocoin : ZerocoinChain
  haveCoin : OutPoint → Bool
  tip : BlockIndex
  getAdjustedTime : Int
  fLockMem : Bool
  hasMainWallet : Bool
  createCoinStake : Nat → Option (Transaction × Int)
  getNextWorkRequired : Int → Bool → Nat
  getLegacySigOpCount : Transaction → Nat
  signBlock : Bool
  testBlockValidity : Block → Bool

-- CMutableTransaction(): what vtx[1] receives when no coinstake was made.
def emptyTransaction : Transaction := ⟨0, [], [], false, false, false, [], []⟩

def nullOutPoint : OutPoint := ⟨0, 4294967295⟩

def Transaction.isCoinBase (tx : Transaction) : Bool :=
  match tx.vin with
  | [i] => i.prevout == nullOutPoint
  | _ => false

def firstInputAnon (tx : Transaction) : Bool :=
  match tx.vin with
  | i :: _ => i.anon
  | [] => false

/-- CCoinsViewCache::HaveInputs (coins.cpp, not part of the sources) holds when
    every input spends a coin of the view; a coinbase has none to check. -/
def haveInputs (haveCoin : OutPoint → Bool) (tx : Transaction) : Bool :=
  tx.isCoinBase || tx.vin.all fun i => haveCoin i.prevout

-- Lines 141-153: the coinstake and the block time it sets, or the empty transaction when the
-- block is PoW or below the PoS start height; none when the wallet makes no stake.
def createCoinStakeStep (node : Node) (fProofOfStake : Bool) : Option (Transaction × Int) :=
  if fProofOfStake ∧ node.tip.nHeight + 1 ≥ node.heightPoSStart then
    node.createCoinStake (node.getNextWorkRequired node.getAdjustedTime true)
  else some (emptyTransaction, 0)

-- Lines 170-175.
def powTime (node : Node) : Int :=
  if node.getAdjustedTime < node.tip.nTime - node.maxPastBlockTime then
    node.tip.nTime - node.maxPastBlockTime + 1
  else node.getAdjustedTime

-- UpdateTime (lines 49-61): nBits is recomputed after it in any case.
def updateTime (node : Node) (nOldTime : Int) : Int :=
  let nNewTime := max (node.tip.nMedianTimePast + 1) node.getAdjustedTime
  if nOldTime < nNewTime then nNewTime else nOldTime

structure Prepared where
  loop : PackageLoop
  nHeight : Nat
  nTime : Int
  txCoinStake : Transaction
deriving DecidableEq, Repr

-- Lines 110-191. STANDARD_LOCKTIME_VERIFY_FLAGS holds LOCKTIME_MEDIAN_TIME_PAST, so the lock
-- time cutoff is the tip's median time past.
def prepareBlock (node : Node) (pool : TxMemPool) (fProofOfStake : Bool) : Option Prepared :=
  if fProofOfStake ∧ node.hasMainWallet = false then none
  else match createCoinStakeStep node fProofOfStake with
    | none => none
    | some (txCoinStake, nTimeStake) =>
        if node.fLockMem = false then none
        else
          let nHeight := node.tip.nHeight + 1
          let asm := (BlockAssembler.create node.consensus node.nBlockMaxWeight).beginBlock nHeight
            node.tip.nMedianTimePast
          (addPackageTxs node.consensus pool asm).map fun loop =>
            ⟨loop, nHeight, if fProofOfStake then nTimeStake else powTime node, txCoinStake⟩

structure Rebuilt where
  vtxReplace : List (Option Transaction)
  removedRecursive : List Transaction
deriving DecidableEq, Repr

-- One slot of the rebuild (lines 277-298): the coinbase slot is kept, a duplicate is handed to
-- mempool.removeRecursive, a transaction whose inputs pcoinsTip lacks is dropped.
def rebuildSlot (haveCoin : OutPoint → Bool) (setDuplicate : List Nat) (acc : Rebuilt) :
    Option Transaction → Rebuilt
  | none => { acc with vtxReplace := acc.vtxReplace ++ [none] }
  | some tx =>
      if tx.hash ∈ setDuplicate then { acc with removedRecursive := acc.removedRecursive ++ [tx] }
      else if !tx.isZerocoinSpend && !firstInputAnon tx && !haveInputs haveCoin tx then acc
      else { acc with vtxReplace := acc.vtxReplace ++ [some tx] }

def removeDuplicates (haveCoin : OutPoint → Bool) (setDuplicate : List Nat)
    (vtx : List (Option Transaction)) : Rebuilt :=
  vtx.foldl (rebuildSlot haveCoin setDuplicate) ⟨[], []⟩

-- The coinbase outputs of lines 303-360; a null OUTPUT_PTR of the resized vector is none.
def coinbaseOutputs (node : Node) (rewards : BlockRewards) (fProofOfStake : Bool)
    (scriptPubKeyIn : Script) (nNetworkReward : Int) : List (Option TxOut) :=
  let size :=
    if rewards.nBudgetPayment > 0 ∧ rewards.nFounderPayment > 0 then if fProofOfStake then 3 else 4
    else if rewards.nBudgetPayment > 0 then if fProofOfStake then 2 else 3
    else 1
  let vpout := (List.replicate size none).set 0 (some ⟨true, [], 0⟩)
  let vpout := if fProofOfStake then vpout
    else vpout.set 0 (some ⟨true, scriptPubKeyIn, rewards.nBlockReward + nNetworkReward⟩)
  if rewards.nBudgetPayment ≠ 0 then
    let vpout := vpout.set (if fProofOfStake then 0 else 1)
      (some ⟨true, node.budgetScript, rewards.nBudgetPayment⟩)
    let vpout := vpout.set (if fProofOfStake then 1 else 2)
      (some ⟨true, node.labScript, rewards.nLabPayment⟩)
    if rewards.nFounderPayment ≠ 0 then
      vpout.set (if fProofOfStake then 2 else 3) (some ⟨true, node.founderScript, rewards.nFounderPayment⟩)
    else vpout
  else vpout

-- Lines 303-370: the height goes first in the scriptSig; a PoS block without budget clears
-- vpout[0].
def createCoinbase (node : Node) (nHeight : Nat) (fProofOfStake : Bool) (scriptPubKeyIn : Script)
    (nNetworkReward : Int) : Transaction :=
  let rewards := node.getBlockRewards nHeight
  let vpout := coinbaseOutputs node rewards fProofOfStake scriptPubKeyIn nNetworkReward
  let vpout := if fProofOfStake ∧ rewards.nBudgetPayment = 0 then
      vpout.modifyHead (Option.map fun out => { out with value := 0, scriptPubKey := [] })
    else vpout
  ⟨0, [⟨nullOutPoint, [.num nHeight, .op0], false⟩], vpout.reduceOption, false, false, false, [], []⟩

def networkReward (node : Node) (nNetworkRewardReserve : Int) : Int :=
  if nNetworkRewardReserve > node.maxNetworkReward then node.maxNetworkReward else nNetworkRewardReserve

-- Lines 193-389.
def finishBlock (node : Node) (scriptPubKeyIn : Script) (fProofOfStake : Bool) (p : Prepared) :
    BlockTemplate :=
  let screened := screenBlock node.zerocoin node.rewardScript p.loop.asm.vtx
    ⟨[], [], [], node.tip.nNetworkRewardReserve⟩
  let rebuilt := removeDuplicates node.haveCoin screened.setDuplicate p.loop.asm.vtx
  let coinbase := createCoinbase node p.nHeight fProofOfStake scriptPubKeyIn
    (networkReward node screened.nNetworkRewardReserve)
  let vtx := if fProofOfStake then
      (rebuilt.vtxReplace ++ List.replicate (2 - rebuilt.vtxReplace.length) none).set 1 (some p.txCoinStake)
    else rebuilt.vtxReplace
  let nTime := if fProofOfStake then p.nTime else updateTime node p.nTime
  ⟨⟨vtx.set 0 (some coinbase), fProofOfStake, node.tip.hash, nTime,
      node.getNextWorkRequired nTime fProofOfStake, 0⟩,
    p.loop.asm.vTxFees.set 0 (-p.loop.asm.nFees),
    p.loop.asm.vTxSigOpsCost.set 0 (node.consensus.witnessScaleFactor * node.getLegacySigOpCount coinbase)⟩

-- Lines 413-441: a PoS block needs a zerocoin spend at vtx[1] and a signature, every block
-- TestBlockValidity.
def blockAccepted (node : Node) (block : Block) : Bool :=
  let staked := match block.vtx with
    | _ :: some stake :: _ => stake.isZerocoinSpend && node.signBlock
    | _ => false
  (!block.fProofOfStake || staked) && node.testBlockValidity block

def createNewBlock (node : Node) (pool : TxMemPool) (scriptPubKeyIn : Script) (fProofOfStake : Bool) :
    Option BlockTemplate :=
  (prepareBlock node pool fProofOfStake).bind fun p =>
    let t := finishBlock node scriptPubKeyIn fProofOfStake p
    if blockAccepted node t.block then some t else none

def rebuildKeeps (haveCoin : OutPoint → Bool) (setDuplicate : List Nat) (tx : Transaction) : Bool :=
  decide (tx.hash ∉ setDuplicate) && (tx.isZerocoinSpend || firstInputAnon tx || haveInputs haveCoin tx)

theorem foldl_rebuildSlot (haveCoin : OutPoint → Bool) (setDuplicate : List Nat)
    (txs : List Transaction) (acc : Rebuilt) :
    (txs.map some).foldl (rebuildSlot haveCoin setDuplicate) acc =
      ⟨acc.vtxReplace ++ (txs.filter (rebuildKeeps haveCoin setDuplicate)).map some,
        acc.removedRecursive ++ txs.filter fun tx => tx.hash ∈ setDuplicate⟩ := by
  induction txs generalizing acc with
  | nil => simp
  | cons tx rest ih =>
      rw [List.map_cons, List.foldl_cons, ih]
      by_cases duplicate : tx.hash ∈ setDuplicate
      · simp [rebuildSlot, rebuildKeeps, duplicate]
      · cases inputs : (tx.isZerocoinSpend || firstInputAnon tx || haveInputs haveCoin tx) <;>
          simp [rebuildSlot, rebuildKeeps, duplicate, ← Bool.not_or, inputs]

theorem removeDuplicates_selected (haveCoin : OutPoint → Bool) (setDuplicate : List Nat)
    (txs : List Transaction) :
    removeDuplicates haveCoin setDuplicate (none :: txs.map some) =
      ⟨none :: (txs.filter (rebuildKeeps haveCoin setDuplicate)).map some,
        txs.filter fun tx => tx.hash ∈ setDuplicate⟩ := by
  simpa [removeDuplicates, rebuildSlot] using foldl_rebuildSlot haveCoin setDuplicate txs ⟨[none], []⟩

theorem foldl_rebuildSlot_unflagged (haveCoin : OutPoint → Bool) (vtx : List (Option Transaction))
    (acc : Rebuilt) :
    vtx.foldl (rebuildSlot haveCoin []) acc =
      ⟨acc.vtxReplace ++ vtx.filter (fun slot => slot.all fun tx =>
        tx.isZerocoinSpend || firstInputAnon tx || haveInputs haveCoin tx), acc.removedRecursive⟩ := by
  induction vtx generalizing acc with
  | nil => simp
  | cons slot rest ih =>
      rw [List.foldl_cons, ih]
      cases slot with
      | none => simp [rebuildSlot]
      | some tx =>
          cases inputs : (tx.isZerocoinSpend || firstInputAnon tx || haveInputs haveCoin tx) <;>
            simp [rebuildSlot, ← Bool.not_or, inputs]

theorem screening_keeps_conflict_free (chain : ZerocoinChain) (rewardScript : Script)
    (haveCoin : OutPoint → Bool) (vtx : List (Option Transaction)) (nNetworkRewardReserve : Int)
    (apart : vtx.reduceOption.Pairwise ScreenedApart)
    (unspent : ∀ tx ∈ vtx.reduceOption, NotInChain chain tx) :
    removeDuplicates haveCoin
        (screenBlock chain rewardScript vtx ⟨[], [], [], nNetworkRewardReserve⟩).setDuplicate vtx =
      ⟨vtx.filter fun slot => slot.all fun tx =>
        tx.isZerocoinSpend || firstInputAnon tx || haveInputs haveCoin tx, []⟩ ∧
    (screenBlock chain rewardScript vtx ⟨[], [], [], nNetworkRewardReserve⟩).nNetworkRewardReserve =
      nNetworkRewardReserve + (vtx.reduceOption.map (rewardPaid rewardScript)).sum := by
  obtain ⟨duplicates, reserve⟩ := screenBlock_apart chain rewardScript vtx
    ⟨[], [], [], nNetworkRewardReserve⟩ apart unspent fun _ _ => ⟨nofun, nofun⟩
  refine ⟨?_, reserve⟩
  rw [duplicates, removeDuplicates, foldl_rebuildSlot_unflagged, List.nil_append]

def unspentChain : ZerocoinChain := ⟨fun _ => false, fun _ => false⟩

def apartSpends : List (Option Transaction) :=
  [none, some (spendTx 11 [1]), some (spendTx 12 [2, 3]), some scenarioB.tx]

theorem apart_spends_kept :
    apartSpends.reduceOption.Pairwise ScreenedApart ∧
    (∀ tx ∈ apartSpends.reduceOption, NotInChain unspentChain tx) ∧
    (apartSpends.filter fun slot => slot.all fun tx =>
        tx.isZerocoinSpend || firstInputAnon tx || haveInputs (fun _ => false) tx) =
      [none, some (spendTx 11 [1]), some (spendTx 12 [2, 3])] ∧
    removeDuplicates (fun _ => false)
        (screenBlock unspentChain [] apartSpends ⟨[], [], [], 0⟩).setDuplicate apartSpends =
      ⟨apartSpends.filter fun slot => slot.all fun tx =>
        tx.isZerocoinSpend || firstInputAnon tx || haveInputs (fun _ => false) tx, []⟩ ∧
    (screenBlock unspentChain [] apartSpends ⟨[], [], [], 0⟩).nNetworkRewardReserve =
      0 + (apartSpends.reduceOption.map (rewardPaid [])).sum :=
  ⟨by decide, by decide, by decide,
    screening_keeps_conflict_free unspentChain [] (fun _ => false) apartSpends 0 (by decide) (by decide)⟩

def selectionStart (node : Node) : BlockAssembler :=
  (BlockAssembler.create node.consensus node.nBlockMaxWeight).beginBlock (node.tip.nHeight + 1)
    node.tip.nMedianTimePast

theorem prepareBlock_some {node : Node} {pool : TxMemPool} {fProofOfStake : Bool} {p : Prepared}
    (prepared : prepareBlock node pool fProofOfStake = some p) :
    addPackageTxs node.consensus pool (selectionStart node) = some p.loop ∧
      p.nHeight = node.tip.nHeight + 1 ∧ (fProofOfStake = true → node.hasMainWallet = true) ∧
      ∃ nTimeStake, createCoinStakeStep node fProofOfStake = some (p.txCoinStake, nTimeStake) ∧
        p.nTime = if fProofOfStake then nTimeStake else powTime node := by
  unfold prepareBlock at prepared
  split at prepared
  · cases prepared
  rename_i wallet
  split at prepared
  · cases prepared
  rename_i nTimeStake stake
  split at prepared
  · cases prepared
  obtain ⟨loop, done, rfl⟩ := Option.map_eq_some'.1 prepared
  exact ⟨done, rfl, fun pos => by simpa [pos] using wallet, nTimeStake, stake, rfl⟩

theorem createNewBlock_finished {node : Node} {pool : TxMemPool} {scriptPubKeyIn : Script}
    {fProofOfStake : Bool} {t : BlockTemplate}
    (built : createNewBlock node pool scriptPubKeyIn fProofOfStake = some t) :
    ∃ p, prepareBlock node pool fProofOfStake = some p ∧
      t = finishBlock node scriptPubKeyIn fProofOfStake p ∧
      blockAccepted node (finishBlock node scriptPubKeyIn fProofOfStake p).block = true := by
  obtain ⟨p, prepared, accepted⟩ := Option.bind_eq_some.1 built
  dsimp only at accepted
  split at accepted
  · exact ⟨p, prepared, (Option.some.inj accepted).symm, ‹_›⟩
  · cases accepted

theorem updateTime_bounds (node : Node) (nOldTime : Int) :
    nOldTime ≤ updateTime node nOldTime ∧ node.tip.nMedianTimePast < updateTime node nOldTime ∧
      node.getAdjustedTime ≤ updateTime node nOldTime := by
  have median := le_max_left (node.tip.nMedianTimePast + 1) node.getAdjustedTime
  have adjusted := le_max_right (node.tip.nMedianTimePast + 1) node.getAdjustedTime
  unfold updateTime
  dsimp only
  split <;> omega

theorem powTime_floor (node : Node) : node.tip.nTime - node.maxPastBlockTime ≤ powTime node := by
  unfold powTime
  split <;> omega

theorem finishBlock_stake (node : Node) (scriptPubKeyIn : Script) (p : Prepared) :
    (finishBlock node scriptPubKeyIn true p).block.vtx[1]? = some (some p.txCoinStake) := by
  simp only [finishBlock, if_true, List.getElem?_set, List.length_set, List.length_append,
    List.length_replicate]
  rw [if_neg (by decide), if_pos (by omega)]

theorem blockAccepted_pos {node : Node} {block : Block} {stake : Transaction}
    (pos : block.fProofOfStake = true) (second : block.vtx[1]? = some (some stake))
    (accepted : blockAccepted node block = true) :
    stake.isZerocoinSpend = true ∧ node.signBlock = true := by
  rcases block with ⟨_ | ⟨a, _ | ⟨b, rest⟩⟩, fProofOfStake, hashPrevBlock, nTime, nBits, nNonce⟩ <;>
    simp only [List.getElem?_nil, List.getElem?_cons_succ, List.getElem?_cons_zero,
      reduceCtorEq, Option.some.injEq] at second
  subst second
  simp only at pos
  simp only [blockAccepted, pos, Bool.not_true, Bool.false_or, Bool.and_eq_true] at accepted
  exact accepted.1

theorem coinbaseOutputs_pow (node : Node) (rewards : BlockRewards) (scriptPubKeyIn : Script)
    (nNetworkReward : Int) :
    ∃ rest, coinbaseOutputs node rewards false scriptPubKeyIn nNetworkReward =
      some ⟨true, scriptPubKeyIn, rewards.nBlockReward + nNetworkReward⟩ :: rest := by
  unfold coinbaseOutputs
  simp only [Bool.false_eq_true, if_false]
  generalize sized : (if rewards.nBudgetPayment > 0 ∧ rewards.nFounderPayment > 0 then 4
    else if rewards.nBudgetPayment > 0 then 3 else 1) = size
  obtain ⟨n, rfl⟩ : ∃ n, size = n + 1 := by split_ifs at sized <;> exact ⟨_, sized.symm⟩
  split_ifs <;> exact ⟨_, rfl⟩

theorem createCoinbase_pow_head (node : Node) (nHeight : Nat) (scriptPubKeyIn : Script)
    (nNetworkReward : Int) :
    (createCoinbase node nHeight false scriptPubKeyIn nNetworkReward).vpout.head? =
      some ⟨true, scriptPubKeyIn, (node.getBlockRewards nHeight).nBlockReward + nNetworkReward⟩ := by
  obtain ⟨rest, outputs⟩ := coinbaseOutputs_pow node (node.getBlockRewards nHeight) scriptPubKeyIn nNetworkReward
  simp [createCoinbase, outputs, List.reduceOption_cons_of_some]

-- The coinbase outputs as the block assembler's design lists them, to compare with lines 303-360.
def referenceCoinbaseOutputs (node : Node) (rewards : BlockRewards) (fProofOfStake : Bool)
    (scriptPubKeyIn : Script) (nNetworkReward : Int) : List TxOut :=
  let miner : List TxOut :=
    if fProofOfStake then [] else [⟨true, scriptPubKeyIn, rewards.nBlockReward + nNetworkReward⟩]
  let founder : List TxOut :=
    if rewards.nFounderPayment > 0 then [⟨true, node.founderScript, rewards.nFounderPayment⟩] else []
  if rewards.nBudgetPayment > 0 then
    miner ++ ⟨true, node.budgetScript, rewards.nBudgetPayment⟩ ::
      ⟨true, node.labScript, rewards.nLabPayment⟩ :: founder
  else if fProofOfStake then [⟨true, [], 0⟩]
  else miner

theorem createCoinbase_outputs (node : Node) (nHeight : Nat) (fProofOfStake : Bool)
    (scriptPubKeyIn : Script) (nNetworkReward : Int)
    (budget : 0 ≤ (node.getBlockRewards nHeight).nBudgetPayment)
    (founder : 0 ≤ (node.getBlockRewards nHeight).nFounderPayment) :
    (createCoinbase node nHeight fProofOfStake scriptPubKeyIn nNetworkReward).vpout =
      referenceCoinbaseOutputs node (node.getBlockRewards nHeight) fProofOfStake scriptPubKeyIn
        nNetworkReward := by
  simp only [createCoinbase]
  generalize node.getBlockRewards nHeight = rewards at budget founder ⊢
  rcases rewards with ⟨nBlockReward, nFounderPayment, nLabPayment, nBudgetPayment⟩
  simp only at budget founder
  have budgetCases : nBudgetPayment = 0 ∨ 0 < nBudgetPayment ∧ nBudgetPayment ≠ 0 := by omega
  have founderCases : nFounderPayment = 0 ∨ 0 < nFounderPayment ∧ nFounderPayment ≠ 0 := by omega
  clear budget founder
  rcases budgetCases with rfl | ⟨budget, budgetNe⟩ <;>
    rcases founderCases with rfl | ⟨founder, founderNe⟩ <;> cases fProofOfStake <;>
    simp_all [coinbaseOutputs, referenceCoinbaseOutputs, List.replicate,
      List.reduceOption_cons_of_some, List.reduceOption_cons_of_none]

def screenedSelection (node : Node) (entries : List TxMemPoolEntry) : Screening :=
  screenBlock node.zerocoin node.rewardScript (none :: (entries.map (·.tx)).map some)
    ⟨[], [], [], node.tip.nNetworkRewardReserve⟩

structure PowTemplate (node : Node) (scriptPubKeyIn : Script) (entries : List TxMemPoolEntry)
    (t : BlockTemplate) : Prop where
  vtx : ∃ coinbase : Transaction,
    t.block.vtx = some coinbase :: ((entries.map (·.tx)).filter
      (rebuildKeeps node.haveCoin (screenedSelection node entries).setDuplicate)).map some ∧
    coinbase.vpout.head? = some ⟨true, scriptPubKeyIn,
      (node.getBlockRewards (node.tip.nHeight + 1)).nBlockReward + networkReward node
        (node.tip.nNetworkRewardReserve + (((entries.map (·.tx)).filter fun tx =>
          tx.hash ∉ (screenedSelection node entries).setDuplicate).map (rewardPaid node.rewardScript)).sum)⟩
  vTxFees : t.vTxFees = -(entries.map (·.nFee)).sum :: entries.map (·.nFee)
  vTxSigOpsCost : t.vTxSigOpsCost.tail = entries.map fun e => (e.sigOpCost : Int)

theorem createNewBlock_pow_appended {node : Node} {pool : TxMemPool} {scriptPubKeyIn : Script}
    {t : BlockTemplate} (built : createNewBlock node pool scriptPubKeyIn false = some t) :
    ∃ p entries, t = finishBlock node scriptPubKeyIn false p ∧
      addPackageTxs node.consensus pool (selectionStart node) = some p.loop ∧
      p.nHeight = node.tip.nHeight + 1 ∧ Appended pool p.loop.asm entries := by
  obtain ⟨p, prepared, rfl, -⟩ := createNewBlock_finished built
  obtain ⟨done, height, -⟩ := prepareBlock_some prepared
  obtain ⟨entries, appended⟩ := (addPackageTxs_visited done).loopInv.appended
  exact ⟨p, entries, rfl, done, height, appended⟩

theorem finishBlock_powTemplate {pool : TxMemPool} (node : Node) (scriptPubKeyIn : Script)
    (p : Prepared) {entries : List TxMemPoolEntry} (height : p.nHeight = node.tip.nHeight + 1)
    (appended : Appended pool p.loop.asm entries) :
    PowTemplate node scriptPubKeyIn entries (finishBlock node scriptPubKeyIn false p) := by
  have vtx : p.loop.asm.vtx = none :: (entries.map (·.tx)).map some := by
    rw [appended.vtx, List.map_map]
  have hashes : ((entries.map (·.tx)).map Transaction.hash).Nodup := by
    simpa [List.map_map] using appended.nodup
  have reserve := screenBlock_reserve node.zerocoin node.rewardScript (entries.map (·.tx))
    ⟨[], [], [], node.tip.nNetworkRewardReserve⟩ hashes (fun _ _ absent => absurd absent (List.not_mem_nil _))
  refine ⟨⟨createCoinbase node p.nHeight false scriptPubKeyIn (networkReward node
      (screenBlock node.zerocoin node.rewardScript p.loop.asm.vtx
        ⟨[], [], [], node.tip.nNetworkRewardReserve⟩).nNetworkRewardReserve), ?_, ?_⟩, ?_, ?_⟩
  · simp only [finishBlock, Bool.false_eq_true, if_false, vtx, removeDuplicates_selected,
      List.set_cons_zero, screenedSelection]
  · rw [createCoinbase_pow_head, height, vtx, screenedSelection, screenBlock_cons_none, reserve]
  · simp [finishBlock, appended.vTxFees, appended.nFees]
  · simp [finishBlock, appended.vTxSigOpsCost]

theorem createNewBlock_pow_template (node : Node) (pool : TxMemPool) (scriptPubKeyIn : Script)
    (t : BlockTemplate) (built : createNewBlock node pool scriptPubKeyIn false = some t) :
    ∃ entries : List TxMemPoolEntry, (∀ e ∈ entries, e ∈ pool.mapTx) ∧
      (entries.map TxMemPoolEntry.hash).Nodup ∧
      (addPackageTxs node.consensus pool (selectionStart node)).map (·.asm.inBlock) =
        some (entries.map TxMemPoolEntry.hash) ∧
      PowTemplate node scriptPubKeyIn entries t := by
  obtain ⟨p, entries, rfl, done, height, appended⟩ := createNewBlock_pow_appended built
  exact ⟨entries, appended.present, appended.nodup, by rw [done, Option.map_some', appended.inBlock],
    finishBlock_powTemplate node scriptPubKeyIn p height appended⟩

theorem createNewBlock_fees_aligned_iff (node : Node) (pool : TxMemPool) (scriptPubKeyIn : Script)
    (t : BlockTemplate) (built : createNewBlock node pool scriptPubKeyIn false = some t) :
    ∃ entries : List TxMemPoolEntry, (∀ e ∈ entries, e ∈ pool.mapTx) ∧
      (entries.map TxMemPoolEntry.hash).Nodup ∧
      (addPackageTxs node.consensus pool (selectionStart node)).map (·.asm.inBlock) =
        some (entries.map TxMemPoolEntry.hash) ∧
      (t.vTxFees.length = t.block.vtx.length ↔
        ∀ tx ∈ entries.map (·.tx),
          rebuildKeeps node.haveCoin (screenedSelection node entries).setDuplicate tx = true) := by
  obtain ⟨p, entries, rfl, done, height, appended⟩ := createNewBlock_pow_appended built
  have layout := finishBlock_powTemplate node scriptPubKeyIn p height appended
  obtain ⟨coinbase, vtx, -⟩ := layout.vtx
  refine ⟨entries, appended.present, appended.nodup,
    by rw [done, Option.map_some', appended.inBlock], ?_⟩
  rw [vtx, layout.vTxFees]
  simp only [List.length_cons, List.length_map, add_left_inj]
  rw [← List.length_map entries (·.tx), eq_comm, List.filter_length_eq_length]

theorem createNewBlock_pow_header (node : Node) (pool : TxMemPool) (scriptPubKeyIn : Script)
    (t : BlockTemplate) (built : createNewBlock node pool scriptPubKeyIn false = some t) :
    t.block.fProofOfStake = false ∧ t.block.hashPrevBlock = node.tip.hash ∧ t.block.nNonce = 0 ∧
      node.tip.nMedianTimePast < t.block.nTime ∧ node.getAdjustedTime ≤ t.block.nTime ∧
      node.tip.nTime - node.maxPastBlockTime ≤ t.block.nTime ∧
      t.block.nBits = node.getNextWorkRequired t.block.nTime false := by
  obtain ⟨p, prepared, rfl, -⟩ := createNewBlock_finished built
  obtain ⟨-, -, -, nTimeStake, -, time⟩ := prepareBlock_some prepared
  obtain ⟨kept, pastMedian, adjusted⟩ := updateTime_bounds node p.nTime
  have floor := powTime_floor node
  simp only [Bool.false_eq_true, if_false] at time
  refine ⟨rfl, rfl, rfl, ?_, ?_, ?_, rfl⟩ <;> simp only [finishBlock, Bool.false_eq_true, if_false] <;>
    omega

theorem createNewBlock_pos_coinstake (node : Node) (pool : TxMemPool) (scriptPubKeyIn : Script)
    (t : BlockTemplate) (built : createNewBlock node pool scriptPubKeyIn true = some t) :
    node.hasMainWallet = true ∧ node.heightPoSStart ≤ node.tip.nHeight + 1 ∧ node.signBlock = true ∧
      ∃ stake : Transaction,
        node.createCoinStake (node.getNextWorkRequired node.getAdjustedTime true) =
          some (stake, t.block.nTime) ∧
        stake.isZerocoinSpend = true ∧ t.block.vtx[1]? = some (some stake) ∧
        t.block.hashPrevBlock = node.tip.hash ∧ t.block.nNonce = 0 ∧
        t.block.nBits = node.getNextWorkRequired t.block.nTime true := by
  obtain ⟨p, prepared, rfl, accepted⟩ := createNewBlock_finished built
  obtain ⟨-, -, wallet, nTimeStake, stakeStep, time⟩ := prepareBlock_some prepared
  have second := finishBlock_stake node scriptPubKeyIn p
  obtain ⟨spend, signed⟩ := blockAccepted_pos rfl second accepted
  simp only [if_true] at time
  unfold createCoinStakeStep at stakeStep
  split at stakeStep
  · rename_i started
    refine ⟨wallet rfl, started.2, signed, p.txCoinStake, ?_, spend, second, rfl, rfl, rfl⟩
    show _ = some (p.txCoinStake, p.nTime)
    rw [time, stakeStep]
  · simp only [Option.some.injEq, Prod.mk.injEq] at stakeStep
    rw [← stakeStep.1] at spend
    exact absurd spend (by decide)

def scenarioNode : Node where
  consensus := scenarioConsensus
  nBlockMaxWeight := 4000000
  heightPoSStart := 1000
  maxPastBlockTime := 7200
  maxNetworkReward := 1000000
  rewardScript := [.data 99]
  budgetScript := [.data 31]
  labScript := [.data 32]
  founderScript := [.data 33]
  getBlockRewards := fun _ => ⟨5000, 0, 0, 0⟩
  zerocoin := ⟨fun _ => false, fun _ => false⟩
  haveCoin := fun o => o.hash == 101 || o.hash == 103
  tip := ⟨0, 77, 1000, 0, 30⟩
  getAdjustedTime := 1600
  fLockMem := true
  hasMainWallet := true
  createCoinStake := fun _ => none
  getNextWorkRequired := fun _ _ => 7
  getLegacySigOpCount := fun _ => 1
  signBlock := true
  testBlockValidity := fun _ => true

def stakingNode : Node :=
  { scenarioNode with heightPoSStart := 0,
                      createCoinStake := fun _ =>
                        some (⟨40, [⟨⟨0, 0⟩, [], false⟩], [], false, true, false, [9], []⟩, 1700) }

def rewardNode : Node := { scenarioNode with rewardScript := [.data 7] }

def budgetNode : Node := { scenarioNode with getBlockRewards := fun _ => ⟨5000, 300, 200, 1000⟩ }

theorem budget_coinbase_outputs :
    0 ≤ (budgetNode.getBlockRewards 1).nBudgetPayment ∧
    0 ≤ (budgetNode.getBlockRewards 1).nFounderPayment ∧
    (createCoinbase budgetNode 1 true [] 0).vpout =
      referenceCoinbaseOutputs budgetNode (budgetNode.getBlockRewards 1) true [] 0 :=
  have budget : 0 ≤ (budgetNode.getBlockRewards 1).nBudgetPayment := by decide
  have founder : 0 ≤ (budgetNode.getBlockRewards 1).nFounderPayment := by decide
  ⟨budget, founder, createCoinbase_outputs budgetNode 1 true [] 0 budget founder⟩

theorem scenario_pow_template :
    ∃ t, createNewBlock scenarioNode scenarioPool [.data 5] false = some t ∧
      ∃ entries : List TxMemPoolEntry, (∀ e ∈ entries, e ∈ scenarioPool.mapTx) ∧
        (entries.map TxMemPoolEntry.hash).Nodup ∧
        (addPackageTxs scenarioNode.consensus scenarioPool (selectionStart scenarioNode)).map
          (·.asm.inBlock) = some (entries.map TxMemPoolEntry.hash) ∧
        PowTemplate scenarioNode [.data 5] entries t :=
  match built : createNewBlock scenarioNode scenarioPool [.data 5] false with
  | some t => ⟨t, rfl, createNewBlock_pow_template scenarioNode scenarioPool [.data 5] t built⟩
  | none => absurd built (by decide)

theorem scenario_fees_aligned_iff :
    ∃ t, createNewBlock scenarioNode scenarioPool [.data 5] false = some t ∧
      ∃ entries : List TxMemPoolEntry, (∀ e ∈ entries, e ∈ scenarioPool.mapTx) ∧
        (entries.map TxMemPoolEntry.hash).Nodup ∧
        (addPackageTxs scenarioNode.consensus scenarioPool (selectionStart scenarioNode)).map
          (·.asm.inBlock) = some (entries.map TxMemPoolEntry.hash) ∧
        (t.vTxFees.length = t.block.vtx.length ↔
          ∀ tx ∈ entries.map (·.tx),
            rebuildKeeps scenarioNode.haveCoin (screenedSelection scenarioNode entries).setDuplicate tx = true) :=
  match built : createNewBlock scenarioNode scenarioPool [.data 5] false with
  | some t => ⟨t, rfl, createNewBlock_fees_aligned_iff scenarioNode scenarioPool [.data 5] t built⟩
  | none => absurd built (by decide)

theorem createNewBlock_drops_selected :
    (addPackageTxs scenarioConsensus scenarioPool scenarioStart).map (·.asm.inBlock) = some [1, 2, 3] ∧
    (createNewBlock scenarioNode scenarioPool [.data 5] false).map
      (fun t => t.block.vtx.tail.map (Option.map Transaction.hash)) = some [some 1, some 3] ∧
    (createNewBlock stakingNode scenarioPool [] true).map
      (fun t => t.block.vtx.tail.map (Option.map Transaction.hash)) = some [some 40, some 3] := by
  decide

theorem createNewBlock_fees_misaligned :
    (createNewBlock scenarioNode scenarioPool [.data 5] false).map
      (fun t => (t.block.vtx.length, t.vTxFees, t.vTxSigOpsCost.length)) =
      some (3, [-350, 100, 200, 50], 4) := by
  decide

theorem createNewBlock_reserve_counts_dropped :
    (createNewBlock rewardNode scenarioPool [.data 5] false).map
      (fun t => (t.block.vtx.tail.map (Option.map Transaction.hash), t.block.coinbase.map (·.vpout))) =
      some ([some 1, some 3], some [⟨true, [.data 5], 5130⟩]) := by
  decide

end Veil.Miner
