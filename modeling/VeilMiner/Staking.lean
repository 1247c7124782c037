import VeilMiner.Mempool

/- The proof-of-stake branch of BitcoinMiner (miner.cpp, lines 741-823), one pass of the outer
   loop at a time. What the pass reads from the node (the tip, the best header, the wallet, the
   peers, the clocks, mapHashedBlocks and mapStakeHashCounter) is an observation, one field per
   read; the globals fMintableCoins, nMintableLastCheck and nStakeHashesLast carry over from
   pass to pass. A pass ends in a sleep or in the call of CreateNewBlock, which records the
   wallet-lock and time conditions as the wait loop last read them and fMintableCoins as it
   stands at the call. The wait loop's body ends in `break`, so it runs at most once and does
   not wait for the wallet or the clock. -/

set_option autoImplicit false

namespace Veil.Miner

structure StakeParams where
  heightPoSStart : Nat
  maxPastBlockTime : Int
  maxFutureBlockTime : Int

structure StakeGlobals where
  fMintableCoins : Bool
  nMintableLastCheck : Int
  nStakeHashesLast : Nat
deriving DecidableEq, Repr

def StakeGlobals.init : StakeGlobals := ⟨false, 0, 0⟩

-- `time` is GetTime() at the five-minute check, `timeInWait` and `mintableInWait` the reads of
-- the one-minute check in the wait loop, `hashedBlockTime` mapHashedBlocks[hashBestBlock] when
-- present, `stakeHashCounter` mapStakeHashCounter[nHeight] when present.
structure StakeObservation where
  hasWallet : Bool
  nHeight : Nat
  nTimeLastBlock : Int
  nTimeBestHeader : Int
  genOverride : Bool
  initialBlockDownload : Bool
  nodeCount : Nat
  stakingEnabled : Bool
  time : Int
  mintableCoins : Bool
  isLocked : Bool
  isUnlockedForStakingOnly : Bool
  adjustedTime : Int
  timeInWait : Int
  mintableInWait : Bool
  hashedBlockTime : Option Int
  stakeHashCounter : Option Nat
  adjustedTimeHashed : Int
  rand : Nat
deriving DecidableEq, Repr

structure WaitCheck where
  walletUnlocked : Bool
  fMintableCoins : Bool
  recentEnough : Bool
deriving DecidableEq, Repr

inductive StakeOutcome where
  | sleep
  | createNewBlock (check : WaitCheck)
deriving DecidableEq, Repr

-- The five-minute (lines 772-776) and one-minute (lines 782-786) checks of MintableCoins.
def StakeGlobals.checkMintable (g : StakeGlobals) (period time : Int) (mintable : Bool) :
    StakeGlobals :=
  if time - g.nMintableLastCheck > period then { g with nMintableLastCheck := time, fMintableCoins := mintable }
  else g

-- The wait loop of lines 778-794: the globals after it, and fNextIter.
def waitLoop (g : StakeGlobals) (o : StakeObservation) (walletUnlocked recentEnough : Bool) :
    StakeGlobals × Bool :=
  if !walletUnlocked || !g.fMintableCoins || !recentEnough then
    if !g.fMintableCoins then
      let g := g.checkMintable 60 o.timeInWait o.mintableInWait
      (g, !g.fMintableCoins)
    else (g, false)
  else (g, false)

-- Lines 796-809: the globals after the mapHashedBlocks check, and whether the pass sleeps.
def hashedBlockWait (p : StakeParams) (g : StakeGlobals) (o : StakeObservation) : StakeGlobals × Bool :=
  match o.hashedBlockTime with
  | none => (g, false)
  | some hashedTime =>
      let g := match o.stakeHashCounter with
        | some n => if n ≠ g.nStakeHashesLast then { g with nStakeHashesLast := n } else g
        | none => g
      (g, decide (o.adjustedTimeHashed + p.maxFutureBlockTime - hashedTime < 60 + o.rand))

def stakeIteration (p : StakeParams) (g : StakeGlobals) (o : StakeObservation) :
    StakeGlobals × StakeOutcome :=
  if (!o.genOverride && decide (o.nTimeBestHeader - o.nTimeLastBlock > 60 * 60)) ||
      o.initialBlockDownload then (g, .sleep)
  else if !o.hasWallet || o.nodeCount == 0 || !o.stakingEnabled || decide (o.nHeight < p.heightPoSStart) then
    (g, .sleep)
  else
    let g := g.checkMintable (5 * 60) o.time o.mintableCoins
    let walletUnlocked := !o.isLocked || o.isUnlockedForStakingOnly
    let recentEnough := decide (o.adjustedTime ≥ o.nTimeLastBlock - p.maxPastBlockTime)
    let (g, fNextIter) := waitLoop g o walletUnlocked recentEnough
    if fNextIter then (g, .sleep)
    else
      let check : WaitCheck := ⟨walletUnlocked, g.fMintableCoins, recentEnough⟩
      let (g, sleeps) := hashedBlockWait p g o
      if sleeps then (g, .sleep) else (g, .createNewBlock check)

def stakeRun (p : StakeParams) : StakeGlobals → List StakeObservation → StakeGlobals × List StakeOutcome
  | g, [] => (g, [])
  | g, o :: rest =>
      let (g', outcome) := stakeIteration p g o
      let (final, outcomes) := stakeRun p g' rest
      (final, outcome :: outcomes)

theorem waitLoop_mintable {g : StakeGlobals} {o : StakeObservation} {walletUnlocked recentEnough : Bool}
    {g' : StakeGlobals} (proceed : waitLoop g o walletUnlocked recentEnough = (g', false)) :
    g'.fMintableCoins = true := by
  unfold waitLoop at proceed
  by_cases mintable : g.fMintableCoins = true
  · simp only [mintable, Bool.not_true, Bool.or_false, Bool.false_eq_true, if_false] at proceed
    split at proceed <;> (cases proceed; exact mintable)
  · simp only [Bool.not_eq_true] at mintable
    simp only [mintable, Bool.not_false, Bool.or_true, if_true] at proceed
    injection proceed with same unset
    subst same
    simpa using unset

theorem stakeIteration_createNewBlock {p : StakeParams} {g : StakeGlobals} {o : StakeObservation}
    {check : WaitCheck} (called : (stakeIteration p g o).2 = .createNewBlock check) :
    check.fMintableCoins = true ∧ o.hasWallet = true ∧ o.nodeCount ≠ 0 ∧ o.stakingEnabled = true ∧
      p.heightPoSStart ≤ o.nHeight := by
  unfold stakeIteration at called
  split at called
  · cases called
  split at called
  · cases called
  rename_i ready
  simp only [Bool.or_eq_true, Bool.not_eq_true', beq_iff_eq, decide_eq_true_eq, not_or, not_lt,
    Bool.not_eq_false] at ready
  obtain ⟨⟨⟨hasWallet, peers⟩, staking⟩, height⟩ := ready
  refine ⟨?_, hasWallet, peers, staking, height⟩
  dsimp only at called
  rcases loop : waitLoop (g.checkMintable (5 * 60) o.time o.mintableCoins) o
    (!o.isLocked || o.isUnlockedForStakingOnly)
    (decide (o.adjustedTime ≥ o.nTimeLastBlock - p.maxPastBlockTime)) with ⟨g', _ | _⟩ <;>
    rw [loop] at called
  · simp only [Bool.false_eq_true, if_false] at called
    split at called <;> cases called
    exact waitLoop_mintable loop
  · cases called

theorem stakeRun_createNewBlock (p : StakeParams) :
    ∀ (g : StakeGlobals) (os : List StakeObservation) (o : StakeObservation) (check : WaitCheck),
      (o, StakeOutcome.createNewBlock check) ∈ os.zip (stakeRun p g os).2 →
        check.fMintableCoins = true ∧ o.hasWallet = true ∧ o.nodeCount ≠ 0 ∧
          o.stakingEnabled = true ∧ p.heightPoSStart ≤ o.nHeight
  | _, [], _, _, called => absurd called (List.not_mem_nil _)
  | g, o' :: rest, o, check, called => by
      simp only [stakeRun, List.zip_cons_cons, List.mem_cons, Prod.mk.injEq] at called
      rcases called with ⟨rfl, now⟩ | later
      · exact stakeIteration_createNewBlock now.symm
      · exact stakeRun_createNewBlock p _ rest o check later

def stakeParams : StakeParams := ⟨0, 7200, 7200⟩

def lockedWallet : StakeObservation where
  hasWallet := true
  nHeight := 10
  nTimeLastBlock := 10000
  nTimeBestHeader := 10000
  genOverride := false
  initialBlockDownload := false
  nodeCount := 8
  stakingEnabled := true
  time := 10060
  mintableCoins := true
  isLocked := true
  isUnlockedForStakingOnly := false
  adjustedTime := 10060
  timeInWait := 10060
  mintableInWait := true
  hashedBlockTime := none
  stakeHashCounter := none
  adjustedTimeHashed := 10060
  rand := 0

theorem locked_run_createNewBlock :
    (lockedWallet, StakeOutcome.createNewBlock ⟨false, true, true⟩) ∈
      [lockedWallet].zip (stakeRun stakeParams StakeGlobals.init [lockedWallet]).2 ∧
    (⟨false, true, true⟩ : WaitCheck).fMintableCoins = true ∧ lockedWallet.hasWallet = true ∧
      lockedWallet.nodeCount ≠ 0 ∧ lockedWallet.stakingEnabled = true ∧
      stakeParams.heightPoSStart ≤ lockedWallet.nHeight :=
  have called : (lockedWallet, StakeOutcome.createNewBlock ⟨false, true, true⟩) ∈
      [lockedWallet].zip (stakeRun stakeParams StakeGlobals.init [lockedWallet]).2 := by
    decide
  ⟨called, stakeRun_createNewBlock stakeParams _ _ _ _ called⟩

theorem stake_createNewBlock_while_locked :
    (stakeIteration stakeParams StakeGlobals.init lockedWallet).2 = .createNewBlock ⟨false, true, true⟩ := by
  decide

end Veil.Miner
