import Cyros.Lib.Run
import Cyros.Lib.IntrusiveQueue
import Cyros.Lib.Rotation
import Cyros.Lib.Reach
import Cyros.Lib.Frames
import Cyros.Lib.Rounding
import Cyros.Lib.Trail
import Cyros.Lib.Circular
import Cyros.Kernel.Spinlock
import Cyros.Kernel.Intake
import Cyros.Kernel.IntakeService
import Cyros.Kernel.Scheduler
import Cyros.Kernel.ReadyStructure
import Cyros.Kernel.Switching
import Cyros.Kernel.CoreRun
import Cyros.Kernel.Termination
import Cyros.Kernel.PortView
import Cyros.Kernel.WakeView
import Cyros.Kernel.WakeStands
import Cyros.Kernel.WaitProtocol
import Cyros.Kernel.WaitSteps
import Cyros.Kernel.Suspend
import Cyros.Kernel.Untouched
import Cyros.Kernel.Mutex
import Cyros.Kernel.MutexWords
import Cyros.Kernel.MutexSteps
import Cyros.Kernel.Ownership
import Cyros.Kernel.QueueTop
import Cyros.Kernel.Urgency
import Cyros.Kernel.Donation
import Cyros.Kernel.Pick
import Cyros.Kernel.Ties
import Cyros.Kernel.Roads
import Cyros.Kernel.HolderView
import Cyros.Kernel.HolderList
import Cyros.Kernel.HandOver
import Cyros.Kernel.WorkConservation
import Cyros.Kernel.RoundRobin
import Cyros.Kernel.Pinning
import Cyros.Kernel.WaitQueue
import Cyros.Kernel.BlockingChain
import Cyros.Kernel.Function
import Cyros.Kernel.FunctionOwnership
import Cyros.Port.CortexM
import Cyros.Port.CortexMCalls
import Cyros.Port.CortexMRequests
import Cyros.Port.CortexMKernel
import Cyros.Port.CortexMSystem
import Cyros.Port.Rv32
import Cyros.Port.Rv32Protocol
import Cyros.Port.LinuxStart
import Cyros.Port.Rp2350Start
import Cyros.Port.BringUp
import Cyros.Port.LinuxMask
import Cyros.Port.LinuxHandBack
import Cyros.Port.TickCount
import Cyros.Port.MtimeGrid
import Cyros.Port.Systick
import Cyros.Port.SystickRestart
import Cyros.Port.Rp2040Timer
import Cyros.Port.Rp2040Doorbell
import Cyros.Port.Leon3Timer
import Cyros.Port.Armv6mDeferral
import Cyros.Sync.Semaphore
import Cyros.Sync.WaitViews
import Cyros.Sync.Tokens
import Cyros.Sync.Handoff
import Cyros.Sync.HandedTokens
import Cyros.Sync.Turns
import Cyros.Sync.InTurn
import Cyros.Sync.Channel
import Cyros.Trace.Ring
import Cyros.Trace.Drain
import Cyros.Trace.Decode
import Cyros.Trace.StreamWriter
import Cyros.Trace.Perfetto
import Cyros.Time.Durations
import Cyros.Time.Timetable
import Cyros.Time.EarliestDeadline
import Cyros.Time.FiringLaw
import Cyros.Time.Simulation
import Cyros.Time.CancelFinal
import Cyros.Time.Handles
import Cyros.Time.Filling
import Cyros.Time.StopStart
