import Opus.Basic
import Opus.Controller.AckSound
import Opus.Controller.Acknowledge
import Opus.Controller.CheckIn
import Opus.Controller.Emulation
import Opus.Controller.HandleClient
import Opus.Controller.Phase
import Opus.Controller.Placement
import Opus.Controller.ProcessLine
import Opus.Controller.RailTopology
import Opus.Controller.RailWorker
import Opus.Controller.Rendezvous
import Opus.Controller.Request
import Opus.Controller.WorkerPool
import Opus.Library.Acyclic
import Opus.Library.Agenda
import Opus.Library.Csv
import Opus.Library.Cycle
import Opus.Library.Dict
import Opus.Library.Lines
import Opus.Library.Lockstep
import Opus.Library.Loop
import Opus.Library.RowMajor
import Opus.Library.Run
import Opus.Library.ShortestPath
import Opus.Library.TaskGraph
import Opus.Numbers
import Opus.Schedule.Event
import Opus.Schedule.Keyed
import Opus.Schedule.Synchronized
import Opus.Schedule.TraceFile
import Opus.Shim.AckWait
import Opus.Shim.Callback
import Opus.Shim.Exchange
import Opus.Shim.KeyedProcess
import Opus.Shim.KeyedRequests
import Opus.Shim.Legacy
import Opus.Shim.Overtake
import Opus.Shim.PairKeys
import Opus.Shim.ProvisionMatch
import Opus.Shim.Provisioning
import Opus.Shim.Replay
import Opus.Shim.ScheduleFiles
import Opus.Shim.ServerAddr
import Opus.Simulation.AllToAllv
import Opus.Simulation.BatchSelection
import Opus.Simulation.BfsRoutes
import Opus.Simulation.BinaryTree
import Opus.Simulation.BitmaskTopology
import Opus.Simulation.CallbackTracker
import Opus.Simulation.Collective
import Opus.Simulation.Conservation
import Opus.Simulation.DoubleBinaryTree
import Opus.Simulation.Drain
import Opus.Simulation.EventQueue
import Opus.Simulation.Feeder
import Opus.Simulation.HalvingDoubling
import Opus.Simulation.IssueLoop
import Opus.Simulation.IssueOnce
import Opus.Simulation.Network
import Opus.Simulation.OpusRoutes
import Opus.Simulation.PacketWindow
import Opus.Simulation.Ring
import Opus.Simulation.RingTopology
import Opus.Simulation.Settled
import Opus.Simulation.StageDigits
import Opus.Simulation.StageState
import Opus.Simulation.SweepConfig
import Opus.Simulation.SweepMatching
import Opus.Simulation.SweepTopology
import Opus.Simulation.SweepTrace
import Opus.Simulation.SweepWorkload
import Opus.Simulation.TraceProvision
import Opus.Simulation.Vote
import Opus.Simulation.WakeUp
import Opus.Wire
