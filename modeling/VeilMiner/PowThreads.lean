import VeilMiner.Template

/- The proof-of-work branch of BitcoinMiner (miner.cpp, lines 735-869) run by any number of
   threads, interleaved with tip changes and with the readings of GetTime(). Shared between the
   threads are the tip (read under cs_main), nNonce_base, nHashes and nTimeStart (under
   cs_nonce) and the function-static hashPrevBlock of IncrementExtraNonce (lines 703-723). A
   thread steps through CreateNewBlock, the reservation of nNonceLocal, IncrementExtraNonce, the
   inner search loop with its hash-rate line, and the submission; each step runs under its lock
   or on the thread's own template, so steps are atomic and any interleaving of them is a run.
   The int32_t statics and locals hold `wrapInt32` of what is assigned to them, the two's
   complement wrap the code gets on overflow; nExtraNonce is an unsigned int. GetTime() may read
   any value at any moment: the wall clock and the mock time can both go back.
   `nReservations`, the threads' `ticket`, `coinbases`, `submitted`, `hashSpeedDivisions` and
   `keepScriptCalls` are not variables of the code: they count the cs_nonce reservations, number
   each thread's, and record every scriptSig IncrementExtraNonce writes, every block handed to
   ProcessNewBlock, the operands of every division of the hash-rate line and the pointer every
   KeepScript is called through. GenerateBitcoins (lines 915-939) and the staking switch of the
   status bar (veilstatusbar.cpp, lines 31-40) start the threads. -/

set_option autoImplicit false

namespace Veil.Miner

inductive MinerPc where
  | build
  | reserve
  | increment
  | scan
  | submit
  | exited
deriving DecidableEq, Repr

structure MinerThread where
  pc : MinerPc
  pblocktemplate : Option BlockTemplate
  nNonceLocal : Int
  nExtraNonce : Nat
  ticket : Nat
deriving DecidableEq, Repr

def MinerThread.idle : MinerThread := ⟨.build, none, 0, 0, 0⟩

structure CoinbaseWrite where
  hashPrevBlock : Nat
  scriptSig : Script
deriving DecidableEq, Repr

structure ReserveScript where
  reserveScript : Script
deriving DecidableEq, Repr

structure MinerSystem where
  tip : BlockIndex
  time : Int
  hashPrevBlock : Nat
  nNonceBase : Int
  nHashes : Nat
  nTimeStart : Int
  threads : Nat → MinerThread
  nReservations : Nat
  coinbases : List CoinbaseWrite
  submitted : List Block
  hashSpeedDivisions : List (Nat × Int)
  keepScriptCalls : List (Option ReserveScript)

-- CreateNewBlock reads `node` with the system's tip; `coinbaseScript` is BitcoinMiner's argument
-- (`none` is nullptr); `checkProofOfWork` is CheckProofOfWork(GetPoWHash(), nBits) as a predicate
-- on the header.
structure MinerEnv where
  node : Node
  pool : TxMemPool
  coinbaseScript : Option ReserveScript
  checkProofOfWork : Block → Bool
  processNewBlock : Block → Bool
  logBlockCreation : Bool

def MinerEnv.scriptMining (env : MinerEnv) : Script :=
  match env.coinbaseScript with
  | some coinbaseScript => coinbaseScript.reserveScript
  | none => []

def MinerSystem.init (tip : BlockIndex) : MinerSystem :=
  ⟨tip, 0, 0, 0, 0, 0, fun _ => .idle, 0, [], [], [], []⟩

-- What an int32_t holds once `x` is assigned to it, and what an unsigned int holds.
def wrapInt32 (x : Int) : Int := x.bmod (2 ^ 32)

def wrapUInt32 (x : Int) : Nat := (x % 2 ^ 32).toNat

theorem wrapInt32_emod (x : Int) : wrapInt32 x % 4294967296 = x % 4294967296 :=
  Int.bmod_emod

theorem wrapInt32_of_lt {x : Int} (lower : -2 ^ 31 ≤ x) (upper : x < 2 ^ 31) : wrapInt32 x = x := by
  rw [wrapInt32, Int.bmod_def]
  split <;> omega

theorem wrapInt32_inj {a b : Nat} (ha : a < 2 ^ 32) (hb : b < 2 ^ 32)
    (same : wrapInt32 a = wrapInt32 b) : a = b := by
  have h := congrArg (· % 4294967296) same
  simp only [wrapInt32_emod] at h
  omega

theorem wrapInt32_succ (x : Int) : wrapInt32 (wrapInt32 x + 1) = wrapInt32 (x + 1) :=
  Int.bmod_add_bmod_congr

def coinbaseScriptSig (block : Block) : Option Script :=
  block.coinbase.bind fun coinbase => coinbase.vin.head?.map (·.scriptSig)

-- IncrementExtraNonce: the new value of the static hashPrevBlock, the block and nExtraNonce.
-- The Merkle roots it recomputes are functions of vtx, which the block carries.
def incrementExtraNonce (hashPrevBlock : Nat) (block : Block) (pindexPrev : BlockIndex)
    (nExtraNonce : Nat) : Nat × Block × Nat :=
  let nExtraNonce := ((if hashPrevBlock ≠ block.hashPrevBlock then 0 else nExtraNonce) + 1) % 2 ^ 32
  let scriptSig := [ScriptElem.num (pindexPrev.nHeight + 1), .num nExtraNonce, .coinbaseFlags]
  (block.hashPrevBlock,
    { block with vtx := block.vtx.modifyHead (Option.map fun coinbase =>
        { coinbase with vin := coinbase.vin.modifyHead fun i => { i with scriptSig := scriptSig } }) },
    nExtraNonce)

def nInnerLoopCount : Nat := 0x10000

def scanNonces (check : Block → Bool) : Nat → Block → Nat → Block × Nat
  | 0, block, nTries => (block, nTries)
  | fuel + 1, block, nTries =>
      if check block then (block, nTries)
      else scanNonces check fuel { block with nNonce := block.nNonce + 1 } (nTries + 1)

theorem scanNonces_spec (check : Block → Bool) :
    ∀ (fuel : Nat) (block : Block) (nTries : Nat),
      (∃ j < fuel, check { block with nNonce := block.nNonce + j } = true ∧
        (∀ k < j, check { block with nNonce := block.nNonce + k } = false) ∧
        scanNonces check fuel block nTries = ({ block with nNonce := block.nNonce + j }, nTries + j)) ∨
      ((∀ k < fuel, check { block with nNonce := block.nNonce + k } = false) ∧
        scanNonces check fuel block nTries = ({ block with nNonce := block.nNonce + fuel }, nTries + fuel))
  | 0, block, nTries => .inr ⟨fun k lt => absurd lt (Nat.not_lt_zero k), rfl⟩
  | fuel + 1, block, nTries => by
      cases hit : check block
      · have shifted : ∀ k, block.nNonce + 1 + k = block.nNonce + (k + 1) := fun k => by omega
        rcases scanNonces_spec check fuel { block with nNonce := block.nNonce + 1 } (nTries + 1) with
          ⟨j, lt, found, before, result⟩ | ⟨missed, result⟩
        · refine .inl ⟨j + 1, by omega, by simpa [shifted] using found, fun k lt' => ?_, ?_⟩
          · cases k with
            | zero => exact hit
            | succ k => simpa [shifted] using before k (by omega)
          · simp [scanNonces, hit, result, shifted, Nat.add_assoc, Nat.add_comm 1 j]
        · refine .inr ⟨fun k lt' => ?_, ?_⟩
          · cases k with
            | zero => exact hit
            | succ k => simpa [shifted] using missed k (by omega)
          · simp [scanNonces, hit, result, shifted, Nat.add_assoc, Nat.add_comm 1 fuel]
      · exact .inl ⟨0, Nat.succ_pos fuel, hit, fun k lt => absurd lt (Nat.not_lt_zero k),
          by simp [scanNonces, hit]⟩

theorem scanNonces_congr {check check' : Block → Bool} :
    ∀ (fuel : Nat) (block : Block) (nTries : Nat),
      (∀ k < fuel, check' { block with nNonce := block.nNonce + k } =
        check { block with nNonce := block.nNonce + k }) →
      scanNonces check' fuel block nTries = scanNonces check fuel block nTries
  | 0, _, _, _ => rfl
  | fuel + 1, block, nTries, agree => by
      have shifted : ∀ k, block.nNonce + 1 + k = block.nNonce + (k + 1) := fun k => by omega
      have head : check' block = check block := agree 0 (Nat.succ_pos fuel)
      simp only [scanNonces, head]
      rw [scanNonces_congr fuel _ _ fun k lt => by simpa [shifted] using agree (k + 1) (by omega)]

def FirstHit (check : Block → Bool) (block : Block) : Prop :=
  check block = true ∧ block.nNonce < nInnerLoopCount ∧
    ∀ n < block.nNonce, check { block with nNonce := n } = false

theorem scanNonces_first_hit (check : Block → Bool) (block : Block) (fresh : block.nNonce = 0) :
    ((scanNonces check nInnerLoopCount block 0).2 ≠ nInnerLoopCount ↔
      ∃ n < nInnerLoopCount, check { block with nNonce := n } = true) ∧
    ((scanNonces check nInnerLoopCount block 0).2 ≠ nInnerLoopCount →
      (scanNonces check nInnerLoopCount block 0).1 =
        { block with nNonce := (scanNonces check nInnerLoopCount block 0).1.nNonce } ∧
      FirstHit check (scanNonces check nInnerLoopCount block 0).1) := by
  have start : ∀ k, { block with nNonce := block.nNonce + k } = { block with nNonce := k } := by
    simp [fresh]
  rcases scanNonces_spec check nInnerLoopCount block 0 with
    ⟨j, lt, found, before, result⟩ | ⟨missed, result⟩ <;> simp only [start] at * <;> simp only [result, Nat.zero_add]
  · exact ⟨iff_of_true (Nat.ne_of_lt lt) ⟨j, lt, found⟩, fun _ => ⟨trivial, found, lt, before⟩⟩
  · exact ⟨iff_of_false (fun ne => ne rfl) fun ⟨n, lt, hit⟩ => by simp [missed n lt] at hit,
      fun ne => absurd rfl ne⟩

def MinerSystem.setThread (s : MinerSystem) (i : Nat) (t : MinerThread) : MinerSystem :=
  { s with threads := Function.update s.threads i t }

def MinerSystem.build (env : MinerEnv) (s : MinerSystem) (i : Nat) : MinerSystem :=
  match createNewBlock { env.node with tip := s.tip } env.pool env.scriptMining false with
  | none => s
  | some tpl => s.setThread i { s.threads i with pc := .reserve, pblocktemplate := some tpl }

def MinerSystem.reserve (s : MinerSystem) (i : Nat) : MinerSystem :=
  { s.setThread i { s.threads i with
      pc := .increment, nNonceLocal := s.nNonceBase, ticket := s.nReservations } with
    nNonceBase := wrapInt32 (s.nNonceBase + 1)
    nTimeStart := if s.nTimeStart = 0 then wrapInt32 s.time else s.nTimeStart
    nReservations := s.nReservations + 1 }

def MinerSystem.increment (s : MinerSystem) (i : Nat) (tpl : BlockTemplate) : MinerSystem :=
  let (hashPrevBlock, block, nExtraNonce) := incrementExtraNonce s.hashPrevBlock
    { tpl.block with nNonce := 0 } s.tip (wrapUInt32 (s.threads i).nNonceLocal)
  { s.setThread i { s.threads i with pc := .scan, pblocktemplate := some { tpl with block := block },
                                     nExtraNonce := nExtraNonce } with
    hashPrevBlock := hashPrevBlock
    coinbases := s.coinbases ++ [⟨block.hashPrevBlock, (coinbaseScriptSig block).getD []⟩] }

-- LogPrint evaluates nHashes/1000/nTimeDuration only when BLOCKCREATION logs. arith_uint256
-- throws on a zero divisor, and ThreadBitcoinMiner (lines 872-885) catches the exception and
-- returns; a negative int32_t divisor converts to a large unsigned one and does not throw.
def MinerSystem.scan (env : MinerEnv) (s : MinerSystem) (i : Nat) (tpl : BlockTemplate) : MinerSystem :=
  let searched := scanNonces env.checkProofOfWork nInnerLoopCount tpl.block 0
  let nTries := searched.2
  let nHashes := (s.nHashes + nTries) % 2 ^ 256
  let nTimeDuration := wrapInt32 (s.time - s.nTimeStart)
  { s.setThread i { s.threads i with
      pc := if env.logBlockCreation ∧ nTimeDuration = 0 then .exited
        else if nTries = nInnerLoopCount then .build else .submit
      pblocktemplate := some { tpl with block := searched.1 } } with
    nHashes := nHashes
    hashSpeedDivisions := if env.logBlockCreation then s.hashSpeedDivisions ++ [(nHashes / 1000, nTimeDuration)]
      else s.hashSpeedDivisions }

-- On acceptance KeepScript is called through coinbaseScript, which, unlike at line 820, is not
-- tested against nullptr.
def MinerSystem.submit (env : MinerEnv) (s : MinerSystem) (i : Nat) (tpl : BlockTemplate) : MinerSystem :=
  { s.setThread i { s.threads i with pc := .build } with
    submitted := s.submitted ++ [tpl.block]
    keepScriptCalls := if env.processNewBlock tpl.block then s.keepScriptCalls ++ [env.coinbaseScript]
      else s.keepScriptCalls }

def MinerSystem.threadStep (env : MinerEnv) (s : MinerSystem) (i : Nat) : MinerSystem :=
  match (s.threads i).pc, (s.threads i).pblocktemplate with
  | .build, _ => s.build env i
  | .reserve, _ => s.reserve i
  | .increment, some tpl => s.increment i tpl
  | .scan, some tpl => s.scan env i tpl
  | .submit, some tpl => s.submit env i tpl
  | .exited, _ => s
  | _, none => s

-- A thread's step, a change of tip, or GetTime() reading `time` from now on.
inductive MinerEvent where
  | thread (i : Nat)
  | tipChange (tip : BlockIndex)
  | clock (time : Int)
deriving DecidableEq, Repr

def MinerSystem.step (env : MinerEnv) (s : MinerSystem) : MinerEvent → MinerSystem
  | .thread i => s.threadStep env i
  | .tipChange tip => { s with tip := tip }
  | .clock time => { s with time := time }

def runMiners (env : MinerEnv) (s : MinerSystem) (events : List MinerEvent) : MinerSystem :=
  events.foldl (MinerSystem.step env) s

inductive MinerReachable (env : MinerEnv) (tip : BlockIndex) : MinerSystem → Prop
  | init : MinerReachable env tip (MinerSystem.init tip)
  | step {s : MinerSystem} (event : MinerEvent) :
      MinerReachable env tip s → MinerReachable env tip (s.step env event)

theorem runMiners_reachable {env : MinerEnv} {tip : BlockIndex} :
    ∀ (events : List MinerEvent) {s : MinerSystem}, MinerReachable env tip s →
      MinerReachable env tip (runMiners env s events)
  | [], _, reach => reach
  | event :: rest, _, reach => runMiners_reachable rest (reach.step event)

-- The coinbaseScript each running ThreadBitcoinMiner was started with.
structure PowThreadGroup where
  fGenerateBitcoins : Bool
  running : List (Option ReserveScript)
deriving DecidableEq, Repr

def generateBitcoins (pthreadGroupPoW : Bool) (group : PowThreadGroup) (fGenerate : Bool)
    (nThreads : Int) (coinbaseScript : Option ReserveScript) : PowThreadGroup :=
  if !pthreadGroupPoW then group
  else
    let nThreads := if nThreads < 0 then 1 else nThreads
    ⟨fGenerate, if nThreads = 0 ∨ fGenerate = false then [] else List.replicate nThreads.toNat coinbaseScript⟩

-- VeilStatusBar::onCheckStakingClicked (veilstatusbar.cpp, lines 31-40); the toast is left out.
def onCheckStakingClicked (pthreadGroupPoW : Bool) (group : PowThreadGroup) (res : Bool) :
    PowThreadGroup :=
  generateBitcoins pthreadGroupPoW group res 1 none

theorem threadStep_cases (env : MinerEnv) (s : MinerSystem) (i : Nat) :
    s.threadStep env i = s ∨
    (∃ tpl, (s.threads i).pc = .build ∧
      s.threadStep env i = s.setThread i { s.threads i with pc := .reserve, pblocktemplate := some tpl }) ∨
    ((s.threads i).pc = .reserve ∧ s.threadStep env i = s.reserve i) ∨
    (∃ tpl, (s.threads i).pc = .increment ∧ (s.threads i).pblocktemplate = some tpl ∧
      s.threadStep env i = s.increment i tpl) ∨
    (∃ tpl, (s.threads i).pc = .scan ∧ (s.threads i).pblocktemplate = some tpl ∧
      s.threadStep env i = s.scan env i tpl) ∨
    (∃ tpl, (s.threads i).pc = .submit ∧ (s.threads i).pblocktemplate = some tpl ∧
      s.threadStep env i = s.submit env i tpl) := by
  unfold MinerSystem.threadStep
  split
  · rename_i pc
    unfold MinerSystem.build
    split
    · exact .inl rfl
    · exact .inr (.inl ⟨_, pc, rfl⟩)
  · exact .inr (.inr (.inl ⟨‹_›, rfl⟩))
  · exact .inr (.inr (.inr (.inl ⟨_, ‹_›, ‹_›, rfl⟩)))
  · exact .inr (.inr (.inr (.inr (.inl ⟨_, ‹_›, ‹_›, rfl⟩))))
  · exact .inr (.inr (.inr (.inr (.inr ⟨_, ‹_›, ‹_›, rfl⟩))))
  · exact .inl rfl
  · exact .inl rfl

section Steps

variable (env : MinerEnv) (s : MinerSystem) (i : Nat) (tpl : BlockTemplate) (t : MinerThread)

@[simp] theorem setThread_self : (s.setThread i t).threads i = t := by
  simp [MinerSystem.setThread]

theorem setThread_other {j : Nat} (other : j ≠ i) : (s.setThread i t).threads j = s.threads j := by
  simp [MinerSystem.setThread, Function.update_noteq other]

@[simp] theorem setThread_submitted : (s.setThread i t).submitted = s.submitted := rfl

@[simp] theorem reserve_submitted : (s.reserve i).submitted = s.submitted := rfl

@[simp] theorem reserve_self : ((s.reserve i).threads i).pc = .increment := by
  simp [MinerSystem.reserve]

@[simp] theorem increment_submitted : (s.increment i tpl).submitted = s.submitted := rfl

@[simp] theorem increment_self : (s.increment i tpl).threads i =
    { s.threads i with
      pc := .scan
      pblocktemplate := some { tpl with block := (incrementExtraNonce s.hashPrevBlock
        { tpl.block with nNonce := 0 } s.tip (wrapUInt32 (s.threads i).nNonceLocal)).2.1 }
      nExtraNonce := (incrementExtraNonce s.hashPrevBlock
        { tpl.block with nNonce := 0 } s.tip (wrapUInt32 (s.threads i).nNonceLocal)).2.2 } := by
  simp [MinerSystem.increment, incrementExtraNonce]

@[simp] theorem incrementExtraNonce_nNonce (hashPrevBlock : Nat) (block : Block) (pindexPrev : BlockIndex)
    (nExtraNonce : Nat) : (incrementExtraNonce hashPrevBlock block pindexPrev nExtraNonce).2.1.nNonce = block.nNonce :=
  rfl

@[simp] theorem scan_submitted : (s.scan env i tpl).submitted = s.submitted := rfl

@[simp] theorem scan_self : (s.scan env i tpl).threads i =
    { s.threads i with
      pc := if env.logBlockCreation ∧ wrapInt32 (s.time - s.nTimeStart) = 0 then .exited
        else if (scanNonces env.checkProofOfWork nInnerLoopCount tpl.block 0).2 = nInnerLoopCount then .build
        else .submit
      pblocktemplate := some { tpl with block := (scanNonces env.checkProofOfWork nInnerLoopCount tpl.block 0).1 } } := by
  simp [MinerSystem.scan]

@[simp] theorem submit_submitted : (s.submit env i tpl).submitted = s.submitted ++ [tpl.block] := rfl

@[simp] theorem submit_self : ((s.submit env i tpl).threads i).pc = .build := by
  simp [MinerSystem.submit]

end Steps

theorem threadStep_others (env : MinerEnv) (s : MinerSystem) {i j : Nat} (other : j ≠ i) :
    (s.threadStep env i).threads j = s.threads j := by
  rcases threadStep_cases env s i with step | ⟨_, _, step⟩ | ⟨_, step⟩ | ⟨_, _, _, step⟩ |
    ⟨_, _, _, step⟩ | ⟨_, _, _, step⟩ <;> rw [step]
  all_goals exact setThread_other _ _ _ other

theorem threadStep_time (env : MinerEnv) (s : MinerSystem) (i : Nat) :
    (s.threadStep env i).time = s.time := by
  rcases threadStep_cases env s i with step | ⟨_, _, step⟩ | ⟨_, step⟩ | ⟨_, _, _, step⟩ |
    ⟨_, _, _, step⟩ | ⟨_, _, _, step⟩ <;> rw [step] <;> rfl

theorem runMiners_others (env : MinerEnv) (i : Nat) :
    ∀ (events : List MinerEvent) (s : MinerSystem), (∀ e ∈ events, e ≠ .thread i) →
      (runMiners env s events).threads i = s.threads i
  | [], _, _ => rfl
  | event :: rest, s, others => by
      refine (runMiners_others env i rest (s.step env event)
        fun e member => others e (List.mem_cons_of_mem _ member)).trans ?_
      cases event with
      | thread j =>
          have other : i ≠ j := fun same => others _ (List.mem_cons_self _ _) (by rw [same])
          exact threadStep_others env s other
      | tipChange _ => rfl
      | clock _ => rfl

theorem threadStep_submitted_of_submit (env : MinerEnv) {s : MinerSystem} {i : Nat} {tpl : BlockTemplate}
    (submitting : (s.threads i).pc = .submit) (held : (s.threads i).pblocktemplate = some tpl) :
    (s.threadStep env i).submitted = s.submitted ++ [tpl.block] := by
  simp only [MinerSystem.threadStep, submitting, held, submit_submitted]

def emptyPool : TxMemPool where
  mapTx := []
  hashes_nodup := List.nodup_nil
  ancestors_nodup := fun _ absent => absurd absent (List.not_mem_nil _)
  ancestors_present := fun _ absent => absurd absent (List.not_mem_nil _)
  ancestors_trans := fun _ absent => absurd absent (List.not_mem_nil _)
  ancestors_irrefl := fun _ absent => absurd absent (List.not_mem_nil _)
  count_exact := fun _ absent => absurd absent (List.not_mem_nil _)
  size_exact := fun _ absent => absurd absent (List.not_mem_nil _)
  fees_exact := fun _ absent => absurd absent (List.not_mem_nil _)
  sigops_exact := fun _ absent => absurd absent (List.not_mem_nil _)
  size_pos := fun _ absent => absurd absent (List.not_mem_nil _)

def powEnv : MinerEnv :=
  ⟨scenarioNode, emptyPool, some ⟨[.data 5]⟩, fun _ => true, fun _ => true, false⟩

def tipOne : BlockIndex := ⟨1, 1, 1000, 0, 0⟩

def tipTwo : BlockIndex := ⟨2, 2, 1100, 0, 0⟩

def MinerThread.Reserved (t : MinerThread) : Prop :=
  t.pc = .increment ∨ t.pc = .scan ∨ t.pc = .submit

theorem threadStep_reservation (env : MinerEnv) (s : MinerSystem) (i : Nat) :
    ((s.threadStep env i).nReservations = s.nReservations ∧
      (s.threadStep env i).nNonceBase = s.nNonceBase ∧
      ((s.threadStep env i).threads i).nNonceLocal = (s.threads i).nNonceLocal ∧
      ((s.threadStep env i).threads i).ticket = (s.threads i).ticket ∧
      (((s.threadStep env i).threads i).Reserved → (s.threads i).Reserved)) ∨
    ((s.threadStep env i).nReservations = s.nReservations + 1 ∧
      (s.threadStep env i).nNonceBase = wrapInt32 (s.nNonceBase + 1) ∧
      ((s.threadStep env i).threads i).nNonceLocal = s.nNonceBase ∧
      ((s.threadStep env i).threads i).ticket = s.nReservations) := by
  rcases threadStep_cases env s i with step | ⟨_, _, step⟩ | ⟨_, step⟩ | ⟨_, pc, _, step⟩ |
    ⟨_, pc, _, step⟩ | ⟨_, pc, _, step⟩ <;> rw [step]
  · exact .inl ⟨rfl, rfl, rfl, rfl, id⟩
  · exact .inl ⟨rfl, rfl, by simp, by simp, fun held => by simp [MinerThread.Reserved] at held⟩
  · exact .inr ⟨rfl, rfl, by simp [MinerSystem.reserve], by simp [MinerSystem.reserve]⟩
  · exact .inl ⟨rfl, rfl, by simp, by simp, fun _ => .inl pc⟩
  · exact .inl ⟨rfl, rfl, by simp, by simp, fun _ => .inr (.inl pc)⟩
  · exact .inl ⟨rfl, rfl, by simp [MinerSystem.submit], by simp [MinerSystem.submit],
      fun _ => .inr (.inr pc)⟩

-- nNonce_base is the reservation count wrapped to int32_t, and each held reservation is a
-- distinct earlier count, wrapped.
def ReservationsDistinct (s : MinerSystem) : Prop :=
  s.nNonceBase = wrapInt32 s.nReservations ∧
  (∀ i, (s.threads i).Reserved →
    (s.threads i).ticket < s.nReservations ∧ (s.threads i).nNonceLocal = wrapInt32 (s.threads i).ticket) ∧
  ∀ i j, i ≠ j → (s.threads i).Reserved → (s.threads j).Reserved →
    (s.threads i).ticket ≠ (s.threads j).ticket

theorem reservationsDistinct_threadStep (env : MinerEnv) {s : MinerSystem} (i : Nat)
    (inv : ReservationsDistinct s) : ReservationsDistinct (s.threadStep env i) := by
  obtain ⟨base, bounded, distinct⟩ := inv
  have others : ∀ j, j ≠ i → (s.threadStep env i).threads j = s.threads j :=
    fun j other => threadStep_others env s other
  have grows : s.nReservations ≤ (s.threadStep env i).nReservations := by
    rcases threadStep_reservation env s i with ⟨count, -⟩ | ⟨count, -⟩ <;> omega
  have own : ((s.threadStep env i).threads i).Reserved →
      ((s.threadStep env i).threads i).ticket < (s.threadStep env i).nReservations ∧
      ((s.threadStep env i).threads i).nNonceLocal = wrapInt32 ((s.threadStep env i).threads i).ticket ∧
      ∀ j, j ≠ i → (s.threads j).Reserved →
        (s.threads j).ticket ≠ ((s.threadStep env i).threads i).ticket := by
    intro held
    rcases threadStep_reservation env s i with ⟨count, -, local_, ticket, reserved⟩ |
      ⟨count, -, fresh, ticket⟩
    · rw [count, local_, ticket]
      exact ⟨(bounded i (reserved held)).1, (bounded i (reserved held)).2,
        fun j other heldJ => distinct j i other heldJ (reserved held)⟩
    · rw [count, fresh, ticket]
      exact ⟨Nat.lt_succ_self _, base, fun j _ heldJ => Nat.ne_of_lt (bounded j heldJ).1⟩
  have counted : (s.threadStep env i).nNonceBase = wrapInt32 (s.threadStep env i).nReservations := by
    rcases threadStep_reservation env s i with ⟨count, nonceBase, -⟩ | ⟨count, nonceBase, -⟩
    · rw [count, nonceBase, base]
    · rw [count, nonceBase, base, wrapInt32_succ, Nat.cast_succ]
  refine ⟨counted, fun k held => ?_, fun j k apart heldJ heldK => ?_⟩
  · by_cases same : k = i
    · subst same
      exact ⟨(own held).1, (own held).2.1⟩
    · rw [others k same] at held ⊢
      exact ⟨lt_of_lt_of_le (bounded k held).1 grows, (bounded k held).2⟩
  · by_cases sameJ : j = i
    · subst sameJ
      rw [others k (Ne.symm apart)] at heldK ⊢
      exact ((own heldJ).2.2 k (Ne.symm apart) heldK).symm
    · rw [others j sameJ] at heldJ ⊢
      by_cases sameK : k = i
      · subst sameK
        exact (own heldK).2.2 j sameJ heldJ
      · rw [others k sameK] at heldK ⊢
        exact distinct j k apart heldJ heldK

theorem MinerReachable.reservationsDistinct {env : MinerEnv} {tip : BlockIndex} {s : MinerSystem}
    (reach : MinerReachable env tip s) : ReservationsDistinct s := by
  induction reach with
  | init => exact ⟨by simp [MinerSystem.init, wrapInt32],
      fun _ held => by simp [MinerSystem.init, MinerThread.idle, MinerThread.Reserved] at held,
      fun _ _ _ held => by simp [MinerSystem.init, MinerThread.idle, MinerThread.Reserved] at held⟩
  | step event _ inv =>
      cases event with
      | thread i => exact reservationsDistinct_threadStep env i inv
      | tipChange _ => exact inv
      | clock _ => exact inv

theorem miners_reservations_distinct (env : MinerEnv) (tip : BlockIndex) (s : MinerSystem)
    (reach : MinerReachable env tip s) (fewer : s.nReservations ≤ 2 ^ 32) :
    ∀ i j, i ≠ j → (s.threads i).Reserved → (s.threads j).Reserved →
      (s.threads i).nNonceLocal ≠ (s.threads j).nNonceLocal := by
  obtain ⟨-, bounded, distinct⟩ := reach.reservationsDistinct
  intro i j apart heldI heldJ same
  obtain ⟨lowI, localI⟩ := bounded i heldI
  obtain ⟨lowJ, localJ⟩ := bounded j heldJ
  exact distinct i j apart heldI heldJ
    (wrapInt32_inj (by omega) (by omega) (by rw [← localI, ← localJ]; exact same))

theorem two_miners_reservations_distinct :
    MinerReachable powEnv tipOne
      (runMiners powEnv (MinerSystem.init tipOne) [.thread 0, .thread 1, .thread 0, .thread 1]) ∧
    (runMiners powEnv (MinerSystem.init tipOne) [.thread 0, .thread 1, .thread 0, .thread 1]).nReservations ≤
      2 ^ 32 ∧
    ((runMiners powEnv (MinerSystem.init tipOne) [.thread 0, .thread 1, .thread 0, .thread 1]).threads 0).pc =
      .increment ∧
    ((runMiners powEnv (MinerSystem.init tipOne) [.thread 0, .thread 1, .thread 0, .thread 1]).threads 1).pc =
      .increment ∧
    ∀ i j, i ≠ j →
      ((runMiners powEnv (MinerSystem.init tipOne) [.thread 0, .thread 1, .thread 0, .thread 1]).threads i).Reserved →
      ((runMiners powEnv (MinerSystem.init tipOne) [.thread 0, .thread 1, .thread 0, .thread 1]).threads j).Reserved →
        ((runMiners powEnv (MinerSystem.init tipOne) [.thread 0, .thread 1, .thread 0, .thread 1]).threads i).nNonceLocal ≠
          ((runMiners powEnv (MinerSystem.init tipOne) [.thread 0, .thread 1, .thread 0, .thread 1]).threads j).nNonceLocal :=
  have reach := runMiners_reachable [.thread 0, .thread 1, .thread 0, .thread 1]
    (MinerReachable.init : MinerReachable powEnv tipOne (MinerSystem.init tipOne))
  ⟨reach, by decide, by decide, by decide, miners_reservations_distinct powEnv tipOne _ reach (by decide)⟩

theorem extraNonce_repeats_for_same_parent :
    (runMiners powEnv (MinerSystem.init tipOne)
      [.thread 0, .thread 1, .thread 0, .thread 1, .thread 1, .thread 0]).coinbases =
      [⟨1, [.num 2, .num 1, .coinbaseFlags]⟩, ⟨1, [.num 2, .num 1, .coinbaseFlags]⟩] := by
  decide

theorem submitted_height_from_later_tip :
    (runMiners powEnv (MinerSystem.init tipOne)
      [.thread 0, .tipChange tipTwo, .thread 0, .thread 0, .thread 0, .thread 0]).submitted.map
        (fun block => (block.hashPrevBlock, coinbaseScriptSig block)) =
      [(tipOne.hash, some [.num (tipTwo.nHeight + 1), .num 1, .coinbaseFlags])] := by
  decide

theorem staking_switch_keeps_null_script :
    ∃ coinbaseScript ∈ (onCheckStakingClicked true ⟨false, []⟩ true).running,
      (runMiners { powEnv with coinbaseScript := coinbaseScript } (MinerSystem.init tipOne)
        [.thread 0, .thread 0, .thread 0, .thread 0, .thread 0]).keepScriptCalls = [none] := by
  decide

def MinerThread.ScanReady (check : Block → Bool) (t : MinerThread) : Prop :=
  (t.pc = .scan → ∃ tpl, t.pblocktemplate = some tpl ∧ tpl.block.nNonce = 0) ∧
  (t.pc = .submit → ∃ tpl, t.pblocktemplate = some tpl ∧ FirstHit check tpl.block)

def SubmitsFirstHits (env : MinerEnv) (s : MinerSystem) : Prop :=
  (∀ i, (s.threads i).ScanReady env.checkProofOfWork) ∧
  ∀ block ∈ s.submitted, FirstHit env.checkProofOfWork block

theorem scanReady_of_pc {check : Block → Bool} {t : MinerThread} (idle : t.pc ≠ .scan ∧ t.pc ≠ .submit) :
    t.ScanReady check :=
  ⟨fun scanning => absurd scanning idle.1, fun submitting => absurd submitting idle.2⟩

theorem submitsFirstHits_threadStep (env : MinerEnv) {s : MinerSystem} (i : Nat)
    (inv : SubmitsFirstHits env s) : SubmitsFirstHits env (s.threadStep env i) := by
  obtain ⟨ready, submitted⟩ := inv
  suffices own : ((s.threadStep env i).threads i).ScanReady env.checkProofOfWork ∧
      ∀ block ∈ (s.threadStep env i).submitted, FirstHit env.checkProofOfWork block by
    refine ⟨fun j => ?_, own.2⟩
    by_cases same : j = i
    · exact same ▸ own.1
    · exact threadStep_others env s same ▸ ready j
  rcases threadStep_cases env s i with step | ⟨tpl, -, step⟩ | ⟨-, step⟩ | ⟨tpl, -, -, step⟩ |
    ⟨tpl, scanning, held, step⟩ | ⟨tpl, submitting, held, step⟩ <;> rw [step]
  · exact ⟨ready i, submitted⟩
  · exact ⟨scanReady_of_pc (by simp), submitted⟩
  · exact ⟨scanReady_of_pc (by simp), submitted⟩
  · rw [increment_self]
    exact ⟨⟨fun _ => ⟨_, rfl, rfl⟩, fun submitting => by simp at submitting⟩, submitted⟩
  · obtain ⟨tpl', held', fresh⟩ := (ready i).1 scanning
    cases held.symm.trans held'
    have hit := (scanNonces_first_hit env.checkProofOfWork tpl.block fresh).2
    refine ⟨?_, submitted⟩
    rw [scan_self]
    split_ifs with threw missed
    · exact scanReady_of_pc (by simp)
    · exact scanReady_of_pc (by simp)
    · exact ⟨fun scanning => by simp at scanning, fun _ => ⟨_, rfl, (hit missed).2⟩⟩
  · obtain ⟨tpl', held', hit⟩ := (ready i).2 submitting
    cases held.symm.trans held'
    refine ⟨scanReady_of_pc (by simp), fun block member => ?_⟩
    rcases (by simpa using member : block ∈ s.submitted ∨ block = tpl.block) with old | rfl
    · exact submitted block old
    · exact hit

theorem MinerReachable.submitsFirstHits {env : MinerEnv} {tip : BlockIndex} {s : MinerSystem}
    (reach : MinerReachable env tip s) : SubmitsFirstHits env s := by
  induction reach with
  | init => exact ⟨fun _ => scanReady_of_pc (by simp [MinerSystem.init, MinerThread.idle]),
      by simp [MinerSystem.init]⟩
  | step event _ inv =>
      cases event with
      | thread i => exact submitsFirstHits_threadStep env i inv
      | tipChange _ => exact inv
      | clock _ => exact inv

theorem scan_submit_iff (env : MinerEnv) (s : MinerSystem) (i : Nat) (tpl : BlockTemplate)
    (fresh : tpl.block.nNonce = 0) :
    ((s.scan env i tpl).threads i).pc = .submit ↔
      (∃ n < nInnerLoopCount, env.checkProofOfWork { tpl.block with nNonce := n } = true) ∧
      ¬ (env.logBlockCreation = true ∧ wrapInt32 (s.time - s.nTimeStart) = 0) := by
  rw [scan_self, ← (scanNonces_first_hit env.checkProofOfWork tpl.block fresh).1]
  split_ifs with threw missed
  · simp [threw]
  · simp [missed]
  · simp [threw, missed]

theorem hash_speed_divides_by_zero :
    (runMiners { powEnv with logBlockCreation := true } (MinerSystem.init tipOne)
        [.clock 1000, .thread 0, .thread 0, .thread 0, .thread 0, .thread 0]).hashSpeedDivisions =
      [(0, 0)] ∧
    ((runMiners { powEnv with logBlockCreation := true } (MinerSystem.init tipOne)
        [.clock 1000, .thread 0, .thread 0, .thread 0, .thread 0, .thread 0]).threads 0).pc = .exited ∧
    (runMiners { powEnv with logBlockCreation := true } (MinerSystem.init tipOne)
        [.clock 1000, .thread 0, .thread 0, .thread 0, .thread 0, .thread 0]).submitted = [] := by
  decide

def forwardClock : Int → List MinerEvent → Bool
  | _, [] => true
  | time, .clock time' :: rest => decide (time ≤ time') && decide (time' < 2 ^ 31) && forwardClock time' rest
  | time, _ :: rest => forwardClock time rest

def ClockInv (s : MinerSystem) : Prop :=
  0 ≤ s.nTimeStart ∧ s.nTimeStart ≤ s.time ∧ s.time < 2 ^ 31 ∧ ∀ d ∈ s.hashSpeedDivisions, 0 ≤ d.2

theorem clockInv_threadStep (env : MinerEnv) {s : MinerSystem} (i : Nat) (inv : ClockInv s) :
    ClockInv (s.threadStep env i) := by
  obtain ⟨started, behind, fits, divisors⟩ := inv
  rcases threadStep_cases env s i with step | ⟨_, _, step⟩ | ⟨_, step⟩ | ⟨_, _, _, step⟩ |
    ⟨_, _, _, step⟩ | ⟨_, _, _, step⟩ <;> rw [step]
  · exact ⟨started, behind, fits, divisors⟩
  · exact ⟨started, behind, fits, divisors⟩
  · have read := wrapInt32_of_lt (x := s.time) (by omega) fits
    refine ⟨?_, ?_, fits, divisors⟩ <;> dsimp only [MinerSystem.reserve, MinerSystem.setThread] <;>
      split <;> omega
  · exact ⟨started, behind, fits, divisors⟩
  · refine ⟨started, behind, fits, fun d member => ?_⟩
    simp only [MinerSystem.scan, MinerSystem.setThread] at member
    split at member
    · rcases List.mem_append.1 member with old | new
      · exact divisors d old
      · rw [List.mem_singleton.1 new, wrapInt32_of_lt (by omega) (by omega)]
        dsimp only
        omega
    · exact divisors d member
  · exact ⟨started, behind, fits, divisors⟩

theorem clockInv_runMiners (env : MinerEnv) :
    ∀ (events : List MinerEvent) (s : MinerSystem), ClockInv s → forwardClock s.time events = true →
      ClockInv (runMiners env s events)
  | [], _, inv, _ => inv
  | .thread i :: rest, s, inv, forward => clockInv_runMiners env rest _ (clockInv_threadStep env i inv)
      (by rw [show (s.step env (.thread i)).time = s.time from threadStep_time env s i]; exact forward)
  | .tipChange _ :: rest, _, inv, forward => clockInv_runMiners env rest _ inv forward
  | .clock time :: rest, s, ⟨started, behind, _, divisors⟩, forward => by
      simp only [forwardClock, Bool.and_eq_true, decide_eq_true_eq] at forward
      exact clockInv_runMiners env rest _ ⟨started, by simp only [MinerSystem.step]; omega,
        forward.1.2, divisors⟩ forward.2

theorem hash_speed_divisor_nonneg (env : MinerEnv) (tip : BlockIndex) (events : List MinerEvent)
    (forward : forwardClock 0 events = true) :
    0 ≤ (runMiners env (MinerSystem.init tip) events).nTimeStart ∧
    (runMiners env (MinerSystem.init tip) events).nTimeStart ≤
      (runMiners env (MinerSystem.init tip) events).time ∧
    ∀ d ∈ (runMiners env (MinerSystem.init tip) events).hashSpeedDivisions, 0 ≤ d.2 :=
  let inv := clockInv_runMiners env events (MinerSystem.init tip)
    ⟨le_refl 0, le_refl 0, (by norm_num : (0 : Int) < 2 ^ 31), nofun⟩ forward
  ⟨inv.1, inv.2.1, inv.2.2.2⟩

theorem logging_divisor_nonneg :
    forwardClock 0 [.clock 1000, .thread 0, .thread 0, .thread 0, .thread 0, .thread 0] = true ∧
    0 ≤ (runMiners { powEnv with logBlockCreation := true } (MinerSystem.init tipOne)
        [.clock 1000, .thread 0, .thread 0, .thread 0, .thread 0, .thread 0]).nTimeStart ∧
    (runMiners { powEnv with logBlockCreation := true } (MinerSystem.init tipOne)
        [.clock 1000, .thread 0, .thread 0, .thread 0, .thread 0, .thread 0]).nTimeStart ≤
      (runMiners { powEnv with logBlockCreation := true } (MinerSystem.init tipOne)
        [.clock 1000, .thread 0, .thread 0, .thread 0, .thread 0, .thread 0]).time ∧
    ∀ d ∈ (runMiners { powEnv with logBlockCreation := true } (MinerSystem.init tipOne)
        [.clock 1000, .thread 0, .thread 0, .thread 0, .thread 0, .thread 0]).hashSpeedDivisions,
      0 ≤ d.2 :=
  have forward : forwardClock 0 [.clock 1000, .thread 0, .thread 0, .thread 0, .thread 0, .thread 0] = true :=
    by decide
  ⟨forward, hash_speed_divisor_nonneg _ tipOne _ forward⟩

end Veil.Miner
