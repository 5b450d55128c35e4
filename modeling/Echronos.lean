import Echronos.Armv7m.ContextSwitch
import Echronos.Armv7m.EventPort
import Echronos.Armv7m.InterruptEvent
import Echronos.Armv7m.Preempt
import Echronos.Build.Dependencies
import Echronos.Build.Schemas
import Echronos.Build.Sections
import Echronos.Build.Typedefs
import Echronos.Configure.Generated
import Echronos.Configure.Identifiers
import Echronos.Configure.Kochab
import Echronos.Configure.Module
import Echronos.Configure.Phact
import Echronos.Configure.Queue
import Echronos.Configure.Rigel
import Echronos.Cooperative.Steps
import Echronos.Cooperative.System
import Echronos.Kernel.Config
import Echronos.Kernel.Core
import Echronos.Kernel.Effects
import Echronos.Kernel.Expiries
import Echronos.Kernel.MessageQueue
import Echronos.Kernel.Moves
import Echronos.Kernel.Mutex
import Echronos.Kernel.MutexStats
import Echronos.Kernel.Pieces
import Echronos.Kernel.Semaphore
import Echronos.Kernel.State
import Echronos.Kernel.Steps
import Echronos.Kernel.System
import Echronos.Kernel.TaskStart
import Echronos.Kernel.Ticks
import Echronos.P2020.Messages
import Echronos.P2020.Steps
import Echronos.P2020.TaskSync
import Echronos.Pm.Review
import Echronos.Pm.Strings
import Echronos.Ports.EventPort
import Echronos.Ports.GetNext
import Echronos.Ports.Irq
import Echronos.Ports.Stacks
import Echronos.Ports.Tasks
import Echronos.Ports.TimerTick
import Echronos.Posix.EventPort
import Echronos.Posix.InterruptEvent
import Echronos.Ppce500.ContextSwitch
import Echronos.Ppce500.Cpu
import Echronos.Ppce500.EventPort
import Echronos.Ppce500.InterruptEvent
import Echronos.Ppce500.Port
import Echronos.Ppce500.Preempt
import Echronos.Properties.Buffering
import Echronos.Properties.CeilingSelection
import Echronos.Properties.Clock
import Echronos.Properties.Conformance
import Echronos.Properties.ContextSwitch
import Echronos.Properties.Deadlines
import Echronos.Properties.EffectivePriority
import Echronos.Properties.Exclusion
import Echronos.Properties.ExpiryTargets
import Echronos.Properties.Fifo
import Echronos.Properties.Handover
import Echronos.Properties.Identifiers
import Echronos.Properties.Idle
import Echronos.Properties.Includes
import Echronos.Properties.Inheritance
import Echronos.Properties.InterruptEvents
import Echronos.Properties.LockOrder
import Echronos.Properties.Mandatory
import Echronos.Properties.MessageQueues
import Echronos.Properties.Mutexes
import Echronos.Properties.OneOf
import Echronos.Properties.Overflow
import Echronos.Properties.PendSv
import Echronos.Properties.PosixSignals
import Echronos.Properties.Preemption
import Echronos.Properties.PriorityCeiling
import Echronos.Properties.Proxies
import Echronos.Properties.QueueChecks
import Echronos.Properties.Relicensing
import Echronos.Properties.Remaining
import Echronos.Properties.ReviewGate
import Echronos.Properties.ReviewNames
import Echronos.Properties.ReviewRuns
import Echronos.Properties.RigelTurns
import Echronos.Properties.RoundRobin
import Echronos.Properties.SchedulerTests
import Echronos.Properties.SchedulingTables
import Echronos.Properties.Sections
import Echronos.Properties.Semaphores
import Echronos.Properties.SignalAssignment
import Echronos.Properties.SignalConstants
import Echronos.Properties.Signals
import Echronos.Properties.Sleep
import Echronos.Properties.Stalls
import Echronos.Properties.TaskStart
import Echronos.Properties.TaskSync
import Echronos.Properties.TaskTimer
import Echronos.Properties.Ticks
import Echronos.Properties.Timeouts
import Echronos.Properties.Timers
import Echronos.Properties.Tokens
import Echronos.Properties.Turns
import Echronos.Properties.WaitTimes
import Echronos.Properties.Waits
import Echronos.Release.License
import Echronos.Schemes.Assoc
import Echronos.Schemes.Blocks
import Echronos.Schemes.Ceiling
import Echronos.Schemes.Cells
import Echronos.Schemes.Counter
import Echronos.Schemes.Crc
import Echronos.Schemes.Except
import Echronos.Schemes.FirstFit
import Echronos.Schemes.Laps
import Echronos.Schemes.Latest
import Echronos.Schemes.Links
import Echronos.Schemes.Mailbox
import Echronos.Schemes.Memory
import Echronos.Schemes.Paths
import Echronos.Schemes.Product
import Echronos.Schemes.Ring
import Echronos.Schemes.Run
import Echronos.Schemes.Scan
import Echronos.Schemes.Sentinel
import Echronos.Schemes.Settles
import Echronos.Schemes.Since
import Echronos.Schemes.Split
import Echronos.Schemes.Switching
import Echronos.Schemes.Text
import Echronos.Schemes.Turns
import Echronos.Schemes.Waiters
import Echronos.Schemes.Words
import Echronos.Schemes.Worklist
import Echronos.Util.AddIndex
import Echronos.Util.Crc16
import Echronos.Variants.Preemptive
import Echronos.Variants.Prio
import Echronos.Variants.PrioCeiling
import Echronos.Variants.PrioInherit
import Echronos.Variants.RoundRobin
import Echronos.Variants.Variant
import Echronos.Xml.Dom
import Echronos.Xml.Include
import Echronos.Xml.Objects
import Echronos.Xml.ReadSchema
import Echronos.Xml.Schema
import Echronos.Xml.Value
