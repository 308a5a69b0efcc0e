import CallTree.Config.Toml
import CallTree.Node.Render
import CallTree.Notice.Filter
import CallTree.Pool.Workspace
import CallTree.Session.Command
import CallTree.Proofs.OpenCalls
import CallTree.Proofs.Closing
import CallTree.Proofs.Effects
import CallTree.Proofs.Run
import CallTree.Proofs.Register
import CallTree.Proofs.Depiction
import CallTree.Proofs.Counts
import CallTree.Proofs.Budget
import CallTree.Proofs.NodeCount
import CallTree.Proofs.PlainTraces
import CallTree.Proofs.Significance
import CallTree.Proofs.Presence
import CallTree.Proofs.Placement
import CallTree.Proofs.CallStack
import CallTree.Proofs.Ledger
import CallTree.Proofs.Accounting
import CallTree.Proofs.Content
import CallTree.Proofs.Transparency
import CallTree.Proofs.Residue
import CallTree.Proofs.Call
import CallTree.Proofs.Replay
import CallTree.Proofs.Delivery
import CallTree.Proofs.Recycling
import CallTree.Proofs.Sharing
import CallTree.Proofs.Handover
import CallTree.Proofs.Timing
import CallTree.Proofs.FlagTally
import CallTree.Proofs.FlagFlow
import CallTree.Proofs.Errors
import CallTree.Proofs.ErrorPresence
import CallTree.Proofs.StatusMarks
import CallTree.Proofs.LocalUse
import CallTree.Proofs.FanOut
import CallTree.Proofs.Isolation
import CallTree.Proofs.Draining
import CallTree.Proofs.Refusal
import CallTree.Proofs.SideBySide
import CallTree.Proofs.Pruning
import CallTree.Proofs.Elision
import CallTree.Proofs.Header
import CallTree.Proofs.SinkClosing
import CallTree.Proofs.IdleSlot
import CallTree.Proofs.Attributes
import CallTree.Proofs.Traversal
import CallTree.Proofs.FlagWords
import CallTree.Proofs.Outline
import CallTree.Proofs.ReadBack
import CallTree.Proofs.TreeJson
import CallTree.Proofs.Settings
import CallTree.Proofs.Reclaiming
import CallTree.Proofs.SharedParts
import CallTree.Proofs.Returns
import CallTree.Proofs.PoolUse
import CallTree.Proofs.VacantSlot
import CallTree.Proofs.FilterText
import CallTree.Proofs.PatternText
import CallTree.Proofs.Visibility
