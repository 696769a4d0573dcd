import ThumbHardening.Pipeline
import ThumbHardening.Proofs.Layout.Shares
import ThumbHardening.Proofs.Layout.Decoys
import ThumbHardening.Proofs.Roster
import ThumbHardening.Proofs.Layout.Budget
import ThumbHardening.Proofs.Layout.Additions
import ThumbHardening.Proofs.Layout.Members
import ThumbHardening.Proofs.Layout.Capacity
import ThumbHardening.Proofs.Predication.Mask
import ThumbHardening.Proofs.Predication.Grouped
import ThumbHardening.Proofs.Predication.Repair
import ThumbHardening.Proofs.Predication.Edits
import ThumbHardening.Proofs.Liveness.Transfer
import ThumbHardening.Proofs.Liveness.Paths
import ThumbHardening.Proofs.Liveness.FreeRegisters
import ThumbHardening.Proofs.Leakage.Calls
import ThumbHardening.Proofs.Leakage.Sweep
import ThumbHardening.Proofs.Leakage.Leakable
import ThumbHardening.Proofs.Layout.Arrangement
import ThumbHardening.Proofs.Layout.Traps
import ThumbHardening.Proofs.Immediate
import ThumbHardening.Proofs.Machine
import ThumbHardening.Proofs.Guard.Accessor
import ThumbHardening.Proofs.Predication.Insertion
import ThumbHardening.Proofs.Verify
import ThumbHardening.Proofs.CallLimit.Code
import ThumbHardening.Proofs.CallLimit.Step
import ThumbHardening.Proofs.CallLimit.Function
import ThumbHardening.Proofs.CallLimit.Program
import ThumbHardening.Proofs.Leakage.Escape
import ThumbHardening.Proofs.Leakage.LinkSpill
import ThumbHardening.Proofs.Leakage.Growth
import ThumbHardening.Proofs.Leakage.Lockstep
import ThumbHardening.Proofs.Leakage.Profile
import ThumbHardening.Proofs.Leakage.Alike
import ThumbHardening.Proofs.Leakage.Changes
import ThumbHardening.Proofs.Leakage.Limited
import ThumbHardening.Proofs.Promotion
import ThumbHardening.Proofs.Leakage.Randomized
import ThumbHardening.Proofs.Pipeline
import ThumbHardening.Proofs.CallGraph.Search
import ThumbHardening.Proofs.CallGraph.Components
import ThumbHardening.Proofs.Leakage.TailCalls
import ThumbHardening.Proofs.Liveness.Exact
import ThumbHardening.Proofs.Leakage.UseChains
import ThumbHardening.Proofs.ValueGraph.Uses
import ThumbHardening.Proofs.ValueGraph.Reached
import ThumbHardening.Proofs.Program.Bindings
import ThumbHardening.Proofs.Aliases
import ThumbHardening.Proofs.Layout.Names
import ThumbHardening.Proofs.Promotion.Moves
import ThumbHardening.Proofs.Promotion.Promoted
import ThumbHardening.Proofs.Layout.Atomic
import ThumbHardening.Proofs.Layout.EtchedOnce
import ThumbHardening.Proofs.Leakage.Monotone
import ThumbHardening.Proofs.Pipeline.Verified
import ThumbHardening.Proofs.Roster.Found
import ThumbHardening.Proofs.Program.Used
import ThumbHardening.Proofs.Layout.Frame
import ThumbHardening.Proofs.Layout.Untouched
import ThumbHardening.Proofs.Guard.Operands
import ThumbHardening.Proofs.Layout.Lookup
import ThumbHardening.Proofs.Layout.EtchedCode
import ThumbHardening.Proofs.Layout.Accepted
import ThumbHardening.Proofs.Leakage.Totals
import ThumbHardening.Proofs.Leakage.Sizes
import ThumbHardening.Proofs.Leakage.Channels
import ThumbHardening.Proofs.Program.Refusals
import ThumbHardening.Proofs.Program.Names
import ThumbHardening.Proofs.Program.Symbols
import ThumbHardening.Proofs.Promotion.Names
import ThumbHardening.Proofs.Promotion.Reentry
import ThumbHardening.Proofs.CallLimit.Trace
import ThumbHardening.Proofs.Predication.InPlace
import ThumbHardening.Proofs.Predication.Kept
import ThumbHardening.Proofs.Predication.GroupEnds
import ThumbHardening.Proofs.Liveness.Rounds
import ThumbHardening.Proofs.FlowGraph.Grown
import ThumbHardening.Proofs.Verify.References
import ThumbHardening.Workbench
import ThumbHardening.Proofs.Workbench
import ThumbHardening.Proofs.Workbench.Exact
import ThumbHardening.Proofs.Predication.Verbatim
import ThumbHardening.Proofs.Workbench.Split
import ThumbHardening.Proofs.Workbench.Sound
import ThumbHardening.Proofs.Layout.Distribution
import ThumbHardening.Proofs.Verify.Contents
import ThumbHardening.Proofs.DataType
import ThumbHardening.Proofs.Promotion.Sentinel
import ThumbHardening.Proofs.Leakage.Reports
import ThumbHardening.Proofs.Layout.Footprint
import ThumbHardening.Proofs.Leakage.Stripped
import ThumbHardening.Proofs.Predication.Stripped
import ThumbHardening.Proofs.Liveness.Stripped
import ThumbHardening.Proofs.Workbench.Cursors
import ThumbHardening.Proofs.Program.Resolution
import ThumbHardening.Proofs.Roster.Histories
