import Automation.CommandLine.Disk
import Automation.Dispatch.Timeline
import Automation.Main
import Automation.Proofs.Dispatch.Runs
import Automation.Proofs.Limit.RateCap
import Automation.Proofs.Dispatch.Bookkeeping
import Automation.Proofs.Dispatch.ReturnOrder
import Automation.Proofs.Dispatch.Bounds
import Automation.Proofs.Json.States
import Automation.Proofs.Number.Counting
import Automation.Proofs.Store.ProgressRows
import Automation.Proofs.Processor.Defining
import Automation.Proofs.Processor.Requests
import Automation.Proofs.Processor.Counts
import Automation.Proofs.Processor.Entering
import Automation.Proofs.Processor.Tracking
import Automation.Proofs.Processor.Soundness
import Automation.Proofs.Processor.FireCount
import Automation.Proofs.Limit.Loading
import Automation.Proofs.Limit.Mirror
import Automation.Proofs.Limit.Renewal
import Automation.Proofs.Processor.Standing
import Automation.Proofs.Processor.Succession
import Automation.Proofs.Processor.Restoring
import Automation.Proofs.Simulation.Stepping
import Automation.Proofs.Simulation.Seam
import Automation.Proofs.Simulation.Leftovers
import Automation.Proofs.Simulation.Split
import Automation.Proofs.Json.Numbers
import Automation.Proofs.Processor.Catalogue
import Automation.Proofs.Processor.WriteThrough
import Automation.Proofs.Processor.Resumption
import Automation.Proofs.Limit.Rounding
import Automation.Proofs.Limit.Upkeep
import Automation.Proofs.Limit.Reference
import Automation.Proofs.Limit.Takeover
import Automation.Proofs.Limit.Authority
import Automation.Proofs.Processor.Below
import Automation.Proofs.Processor.Isolation
import Automation.Proofs.Processor.Agreement
import Automation.Proofs.Dispatch.Gates
import Automation.Proofs.Dispatch.Wakeups
import Automation.Proofs.Dispatch.Settling
import Automation.Proofs.Dispatch.Progress
import Automation.Proofs.Limit.Queueing
import Automation.Proofs.Limit.LostWrites
import Automation.Proofs.Limit.Enforcement
import Automation.Proofs.Processor.Holding
import Automation.Proofs.Processor.LostProgress
import Automation.Proofs.Limit.Exactness
import Automation.Proofs.Limit.Repetition
import Automation.Proofs.Processor.Orphans
import Automation.Proofs.Processor.Binding
import Automation.Proofs.Processor.Commutation
import Automation.Proofs.ByteOrder
import Automation.Proofs.Processor.Emission
import Automation.Proofs.Processor.Groups
import Automation.Proofs.Processor.Lifecycle
import Automation.Proofs.Simulation.Verdicts
import Automation.Proofs.Simulation.Reports
import Automation.Proofs.Wire.DataModel
import Automation.Proofs.Dispatch.StartOrder
import Automation.Proofs.Limit.Window
import Automation.Proofs.Limit.Pruning
import Automation.Proofs.Limit.Refusals
import Automation.Proofs.Limit.Multiplicity
import Automation.Proofs.Limit.Atomicity
import Automation.Proofs.Dispatch.Backoff
import Automation.Proofs.Processor.Novelty
import Automation.Proofs.Trigger.Paths
import Automation.Proofs.Trigger.Numerals
import Automation.Proofs.Store.Batches
import Automation.Proofs.Store.Histories
import Automation.Proofs.Processor.StoredBelow
