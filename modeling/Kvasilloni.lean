import Kvasilloni.Library.CheckedMemory
import Kvasilloni.Library.PrefixCode
import Kvasilloni.Frames
import Kvasilloni.Grammar
import Kvasilloni.Datagrams
import Kvasilloni.Streams
import Kvasilloni.DecoderAgreement
import Kvasilloni.Marshal
import Kvasilloni.EndToEnd
import Kvasilloni.Library.BoundedFifo
import Kvasilloni.SharedRing
import Kvasilloni.RingFifo
import Kvasilloni.Library.StepSystem
import Kvasilloni.Reception
import Kvasilloni.ReadBounds
import Kvasilloni.InFlight
import Kvasilloni.ClosingInside
import Kvasilloni.Transmit
import Kvasilloni.TransmitIntegrity
import Kvasilloni.Library.LockOwner
import Kvasilloni.Library.Progress
import Kvasilloni.Library.Projection
import Kvasilloni.TcpPeers
import Kvasilloni.TcpHandshake
import Kvasilloni.ReadOrder
import Kvasilloni.ReadTimes
import Kvasilloni.QueuedReads
import Kvasilloni.TcpDelivery
import Kvasilloni.Library.LossyNetwork
import Kvasilloni.UdpTransmit
import Kvasilloni.UdpDelivery
import Kvasilloni.Library.Spawning
import Kvasilloni.CanBridge
import Kvasilloni.BridgeFlood
import Kvasilloni.BridgePairs
import Kvasilloni.BridgeStop
import Kvasilloni.BridgeLock
import Kvasilloni.Threads
import Kvasilloni.CallbackLock
import Kvasilloni.NotifyQuiescence
import Kvasilloni.CloseQuiescence
import Kvasilloni.Library.CondvarTally
import Kvasilloni.WaitingReaders
import Kvasilloni.LostWakeup
import Kvasilloni.NotificationLog
import Kvasilloni.TcpLink
import Kvasilloni.TeardownOrder
import Kvasilloni.DeadLink
import Kvasilloni.BusOff
import Kvasilloni.Library.WaitFor
import Kvasilloni.Programs
import Kvasilloni.LockOrder
import Kvasilloni.ThreadPlaces
import Kvasilloni.CrossedCallbacks
import Kvasilloni.HandleTable
import Kvasilloni.UdpLoop
import Kvasilloni.UdpInfluence
import Kvasilloni.CloseWakes
import Kvasilloni.OverrunLatch
import Kvasilloni.FilterVerdicts
import Kvasilloni.DrivingProtocol
import Kvasilloni.Preallocation
import Kvasilloni.Library.Trimming
import Kvasilloni.Library.TextLines
import Kvasilloni.Library.LastValue
import Kvasilloni.IpLiterals
import Kvasilloni.Configuration
import Kvasilloni.EnvOverlay
import Kvasilloni.IniDocuments
import Kvasilloni.Library.Regex
import Kvasilloni.PythonText
import Kvasilloni.IniMerge
import Kvasilloni.IniMigration
import Kvasilloni.IniMirror
import Kvasilloni.ConfigLoading
import Kvasilloni.IniSettling
import Kvasilloni.ConfigUpgrade
import Kvasilloni.Accepting
import Kvasilloni.SizedAnswers
import Kvasilloni.CloseCompletes
import Kvasilloni.Channels
