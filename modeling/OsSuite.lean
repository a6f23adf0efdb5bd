import OsSuite.FirstWrites
import OsSuite.SoftTlbIsolation
import OsSuite.Timer
import OsSuite.MlfqReset
import OsSuite.WakeUp
import OsSuite.ProcAlloc
import OsSuite.Dispatch
import OsSuite.RoundRobin
import OsSuite.SliceAccounting
import OsSuite.ParallelFor
import OsSuite.HistoryRecords
import OsSuite.PipeSplit
import OsSuite.EagerLoader
import OsSuite.LoadOnce
import OsSuite.Fragmentation
import OsSuite.Lifecycle
import OsSuite.CpuTime
import OsSuite.LifecycleTimes
import OsSuite.ShellProtocol
import OsSuite.KillAll
import OsSuite.Fairness
import OsSuite.Installed
import OsSuite.DiskRead
import OsSuite.UdpDemo
import OsSuite.MatrixProgram
import OsSuite.VectorProgram
import OsSuite.DirLookup
import OsSuite.Grep
import OsSuite.ChangeDir
import OsSuite.Terminal
import OsSuite.Arguments
import OsSuite.FileService
import OsSuite.TerminalService
