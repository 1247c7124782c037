import VeilMiner.Mempool
import VeilMiner.Assembler
import VeilMiner.Selection
import VeilMiner.LoopFacts
import VeilMiner.Overlay
import VeilMiner.Package
import VeilMiner.Invariant
import VeilMiner.Closure
import VeilMiner.Termination
import VeilMiner.Feerate
import VeilMiner.Resources
import VeilMiner.Greedy
import VeilMiner.Exactness
import VeilMiner.Maximality
import VeilMiner.Screening
import VeilMiner.Template
import VeilMiner.PowThreads
import VeilMiner.Staking
