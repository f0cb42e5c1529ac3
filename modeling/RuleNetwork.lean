import RuleNetwork.Context.Pool
import RuleNetwork.Network.Callers
import RuleNetwork.Lookahead.NextSymbols
import RuleNetwork.Main
import RuleNetwork.Proofs.Outcome
import RuleNetwork.Proofs.Walk.Free
import RuleNetwork.Proofs.Walk.Completion
import RuleNetwork.Proofs.Walk.Soundness
import RuleNetwork.Proofs.Walk.Invocation
import RuleNetwork.Proofs.Walk.Spread
import RuleNetwork.Proofs.Walk.Termination
import RuleNetwork.Proofs.Walk.Adequacy
import RuleNetwork.Proofs.Network.Construction
import RuleNetwork.Proofs.Network.Validity
import RuleNetwork.Proofs.Walk.Inner
import RuleNetwork.Proofs.Walk.Exploration
import RuleNetwork.Proofs.Walk.Progress
import RuleNetwork.Proofs.Walk.Exactness
import RuleNetwork.Proofs.ExpectedSymbols
import RuleNetwork.Proofs.Context.Composition
import RuleNetwork.Proofs.Walk.FanOut
import RuleNetwork.Proofs.Walk.Length
import RuleNetwork.Proofs.Walk.Markers
import RuleNetwork.Proofs.CallComposition
import RuleNetwork.Proofs.Walk.TransitionOrder
import RuleNetwork.Proofs.Context.Order
import RuleNetwork.Proofs.Context.Session
import RuleNetwork.Proofs.Walk.Caller
import RuleNetwork.Proofs.Walk.Origin
import RuleNetwork.Proofs.Queries
import RuleNetwork.Proofs.Context.Chains
import RuleNetwork.Proofs.Context.Memory
import RuleNetwork.Proofs.Context.Interning
import RuleNetwork.Proofs.Context.Sharing
import RuleNetwork.Proofs.Network.Assembly
import RuleNetwork.Proofs.Walk.Parallel
import RuleNetwork.Proofs.GrownNetworks
import RuleNetwork.Proofs.Symbol.Codes
import RuleNetwork.Proofs.Symbol.Programs
import RuleNetwork.Proofs.Walk.Policy
import RuleNetwork.Proofs.Walk.Silent
import RuleNetwork.Proofs.Walk.Stop
import RuleNetwork.Proofs.Decisions
import RuleNetwork.Proofs.ExpectedAlongCallers
import RuleNetwork.Proofs.Network.Defects
import RuleNetwork.Proofs.Context.Reading
import RuleNetwork.Proofs.Symbol.Reading
import RuleNetwork.Proofs.Walk.Log
import RuleNetwork.Proofs.Walk.Reentry
import RuleNetwork.Proofs.Walk.OpenCalls
import RuleNetwork.Proofs.CommandLine.StateTexts
import RuleNetwork.Proofs.Network.Printing
import RuleNetwork.Proofs.CommandLine.Report
import RuleNetwork.Proofs.Symbol.Intervals
