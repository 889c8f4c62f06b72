import Smr.Concurrency.Program
import Smr.Concurrency.Execution
import Smr.Concurrency.RelyGuarantee
import Smr.Concurrency.Sequential
import Smr.Concurrency.Sessions
import Smr.Concurrency.Similarity
import Smr.Memory
import Smr.Urcu.Reclaimer
import Smr.Urcu.Scheme
import Smr.Urcu.GracePeriod
import Smr.Urcu.Contract
import Smr.HazardPointer.Reclaimer
import Smr.HazardEras.Clearing
import Smr.HazardEras.Conservation
import Smr.HazardEras.Contract
import Smr.HazardEras.Destruction
import Smr.HazardEras.Eras
import Smr.HazardEras.Reclaimer
import Smr.HazardEras.Sweep
import Smr.IntervalBased.Conservation
import Smr.IntervalBased.Containers
import Smr.IntervalBased.Coverage
import Smr.IntervalBased.Contents
import Smr.IntervalBased.Reclaimer
import Smr.IntervalBased.Safety
import Smr.IntervalBased.Scheme
import Smr.IntervalBased.Sweep
import Smr.IntervalBased.Schedule
import Smr.Containers.Code
import Smr.Containers.Commands
import Smr.Containers.Bounds
import Smr.Containers.Contents
import Smr.Containers.Capacity
import Smr.Containers.Clearing
import Smr.Containers.Destruction
import Smr.Containers.QueueLife
import Smr.Containers.StackLife
import Smr.Reclamation.Ledger
import Smr.Reclamation.Retired
import Smr.Reclamation.Rules
import Smr.Reclamation.Steps
import Smr.Reclamation.Sweep
import Smr.Reclamation.Conservation
import Smr.Reclamation.Custody
import Smr.Reclamation.Schedule
import Smr.HazardPointer.Scheme
import Smr.Containers.Segments
import Smr.Containers.QueueCore
import Smr.Containers.QueueSafety
import Smr.Containers.Shield
import Smr.Containers.StackCore
import Smr.Containers.StackSafety
import Smr.HazardPointer.Containers
import Smr.HazardPointer.Clearing
import Smr.HazardPointer.Conservation
import Smr.HazardPointer.Contents
import Smr.HazardPointer.Contract
import Smr.HazardPointer.Destruction
import Smr.HazardPointer.Safety
import Smr.HazardPointer.Scans
import Smr.IntervalBased.Scans
import Smr.HazardPointer.Slots
import Smr.HazardPointer.Sweep
import Smr.Concurrency.Notes
import Smr.Containers.Identities
import Smr.Containers.QueueOrder
import Smr.Containers.StackOrder
import Smr.HazardPointer.Fifo
import Smr.HazardPointer.Lifo
import Smr.Urcu.QueueSafety
import Smr.Urcu.Fifo
import Smr.Concurrency.Linearizability
import Smr.Urcu.StackSafety
import Smr.Urcu.Lifo
import Smr.Concurrency.Placement
import Smr.Containers.ListCore
import Smr.Containers.ListContents
import Smr.Reclamation.Lifetimes
import Smr.Reclamation.Holdings
import Smr.Reclamation.Looks
import Smr.Reclamation.Settling
import Smr.Urcu.Custody
import Smr.Urcu.ListContract
import Smr.Urcu.ListSearch
import Smr.Urcu.ListSafety
import Smr.Urcu.ListRuns
import Smr.Urcu.ListStructure
import Smr.Urcu.ListReclamation
import Smr.Urcu.ListDestruction
import Smr.Urcu.ListLinear
import Smr.IntervalBased.Contract
import Smr.IntervalBased.Destruction
import Smr.Urcu.Containers
import Smr.Urcu.Balance
import Smr.Urcu.Bumps
import Smr.Urcu.Alone
import Smr.Urcu.Destruction
import Smr.HazardEras.Containers
import Smr.Concurrency.Parts
import Smr.Containers.Keeping
import Smr.Containers.Marks
import Smr.Reclamation.Scans
import Smr.Containers.Discipline
import Smr.Reclaimers
import Smr.Containers.Leftovers
import Smr.Containers.Sets
import Smr.Containers.ListLife
import Smr.Values
import Smr.Answers
import Smr.Families
