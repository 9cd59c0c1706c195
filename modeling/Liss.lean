import Liss.Types
import Liss.Lib.Worklist
import Liss.Lib.Stack
import Liss.Lib.Automaton
import Liss.Lib.Since
import Liss.Lib.Replay
import Liss.Lib.Contraction
import Liss.Lib.Keyed
import Liss.Lib.Commutation
import Liss.Lib.Numbering
import Liss.Lib.WordGraph
import Liss.Lib.Ordered
import Liss.Lib.Solver
import Liss.Lib.Runs
import Liss.Lib.Prune
import Liss.Lib.RootPaths
import Liss.Cfg.AbstractCfg
import Liss.Cfg.Automaton
import Liss.Cfg.Minimise
import Liss.Cfg.Passes
import Liss.Cfg.Program
import Liss.Cfg.Visited
import Liss.Cfg.Distances
import Liss.Cfg.Constructed
import Liss.Cfg.Compact
import Liss.Cfg.Renumbering
import Liss.Cfg.Returns
import Liss.Cfg.Threads
import Liss.Cfg.Positions
import Liss.Cfg.EdgeNumbers
import Liss.Cfg.PathLanguage
import Liss.Cfg.NextSymbols
import Liss.Cfg.Costs
import Liss.Cfg.Rewards
import Liss.Abstraction.ConcurrentAutomaton
import Liss.Abstraction.StateEquality
import Liss.Abstraction.Accepted
import Liss.Abstraction.CompressedAutomaton
import Liss.Abstraction.Compression
import Liss.Abstraction.Exactness
import Liss.Abstraction.Steps
import Liss.Abstraction.WrapperAutomaton
import Liss.Abstraction.Preemption
import Liss.Abstraction.Refinement
import Liss.Abstraction.Schedule
import Liss.Abstraction.Forbidden
import Liss.Abstraction.Monitor
import Liss.Abstraction.FiniteStates
import Liss.Abstraction.Restricted
import Liss.Abstraction.Rewards
import Liss.Abstraction.IdentifierStore
import Liss.ClangInterf.StatementVisitor
import Liss.ClangInterf.Chains
import Liss.ClangInterf.Assignment
import Liss.ClangInterf.Accesses
import Liss.ClangInterf.Classification
import Liss.Synthesis.Z3Helpers
import Liss.Synthesis.Constraint
import Liss.Synthesis.Reorderings
import Liss.Synthesis.Matching
import Liss.Synthesis.Orderings
import Liss.Synthesis.Lockings
import Liss.Synthesis.Replays
import Liss.Synthesis.ConditionalEncoding
import Liss.Synthesis.LockEncoding
import Liss.Synthesis.GoodOrders
import Liss.Synthesis.LockMismatch
import Liss.Synthesis.FindOrder
import Liss.Synthesis.ProcessTrace
import Liss.Synthesis.Conclusive
import Liss.Synthesis.Encodings
import Liss.Synthesis.TraceHelpers
import Liss.Synthesis.RemovePreemption
import Liss.Synthesis.Synchronisation
import Liss.Synthesis.Soundness
import Liss.Synthesis.Progress
import Liss.Synthesis.Handles
import Liss.Synthesis.RemoveDuplicates
import Liss.Synthesis.BlowUp
import Liss.Placement.PlaceLocks
import Liss.Placement.Discipline
import Liss.Placement.PrintProgram
import Liss.Placement.Deadlock
import Liss.Placement.Duplicates
import Liss.Placement.CostModel
import Liss.Placement.Coverage
import Liss.Placement.Neighbours
import Liss.Automata.DeadlockAlgo
import Liss.Automata.PerfTest
import Liss.Automata.SleepSets
import Liss.Automata.Independence
import Liss.Synthesis.ExactLocks
import Liss.Lib.Executions
import Liss.Placement.Instrumented
import Liss.Placement.Protection
import Liss.Cfg.Walks
import Liss.Placement.Preemptive
import Liss.Lib.TraceEquivalence
import Liss.Automata.DataEffects
import Liss.Actions.InclusionTest
import Liss.Actions.Synthesis2
import Liss.Placement.FindLocks
import Liss.Actions.SynthesisedProgram
import Liss.Cfg.Readings
import Liss.Cfg.Preparation
import Liss.ClangInterf.CfgVisitor
import Liss.ClangInterf.Meaning
import Liss.ClangInterf.Drafts
import Liss.ClangInterf.Statements
import Liss.ClangInterf.Exploration
import Liss.ClangInterf.Termination
import Liss.Placement.PreparedThreads
import Liss.ClangInterf.ThreadVisitor
