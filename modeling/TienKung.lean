import TienKung.Lib.Mealy
import TienKung.Lib.Barrier
import TienKung.Lib.Flags
import TienKung.Lib.Checked
import TienKung.Lib.Periods
import TienKung.Lib.Threads
import TienKung.Lib.Loops
import TienKung.Lib.Division
import TienKung.Lib.Cells
import TienKung.Lib.Fifo
import TienKung.Lib.Heap
import TienKung.Lib.Past
import TienKung.Util.LockFreeQueue
import TienKung.Lib.Blocks
import TienKung.Lib.Words
import TienKung.Lib.BitFields
import TienKung.Lib.Unordered
import TienKung.Lib.Chains
import TienKung.Lib.Doubles
import TienKung.Lib.Quantise
import TienKung.Lib.Extended
import TienKung.Lib.Pursuit
import TienKung.Lib.Codecs
import TienKung.Lib.Framing
import TienKung.Lib.Decay
import TienKung.Lib.Rotations
import TienKung.Lib.Families
import TienKung.Lib.Memory
import TienKung.Lib.Packing
import TienKung.Soem.Message
import TienKung.Soem.Master
import TienKung.Soem.RunLoop
import TienKung.Soem.Objects
import TienKung.Soem.Replay
import TienKung.Soem.Init
import TienKung.Soem.Service
import TienKung.Soem.Cycles
import TienKung.Soem.Bounds
import TienKung.Soem.SlaveStates
import TienKung.Soem.Ecatcheck
import TienKung.Soem.Healing
import TienKung.Soem.Nic
import TienKung.Soem.ConfigMap
import TienKung.Soem.ProcessImage
import TienKung.Soem.ProcessData
import TienKung.Soem.Exchange
import TienKung.Soem.WorkingCounter
import TienKung.Soem.MessageBytes
import TienKung.Soem.Wire
import TienKung.BodyControl.Loaders
import TienKung.BodyControl.NodeState
import TienKung.BodyControl.Commands
import TienKung.BodyControl.HandCommands
import TienKung.BodyControl.Overheating
import TienKung.Canopen.Sdo
import TienKung.Canopen.Driver
import TienKung.Canopen.Codec
import TienKung.Canopen.SignedReads
import TienKung.Canopen.Activation
import TienKung.Canopen.Startup
import TienKung.Canopen.StartupSafety
import TienKung.Devices.StatusManager
import TienKung.Devices.StatusBarrier
import TienKung.Devices.Publication
import TienKung.Devices.MotorDevice
import TienKung.Devices.MotorCommands
import TienKung.Devices.PositionFrame
import TienKung.Devices.MotorDistance
import TienKung.Devices.MathOps
import TienKung.Devices.CtrlFrame
import TienKung.Devices.MotorCycles
import TienKung.Devices.MotorPublication
import TienKung.Devices.TsinghuaHand
import TienKung.Devices.HandFrames
import TienKung.Devices.PowerBoard
import TienKung.Devices.PowerFlags
import TienKung.Devices.PowerDecoders
import TienKung.Devices.PowerTiming
import TienKung.Devices.PowerPolling
import TienKung.Devices.SriSensor
import TienKung.Devices.XsensImu
import TienKung.Devices.XsensSamples
import TienKung.Devices.FilteredImu
import TienKung.Devices.FilteredSamples
import TienKung.Sbus.Packet
import TienKung.Sbus.Read
import TienKung.Sbus.Deliveries
import TienKung.Sbus.SerialLine
import TienKung.Sbus.Corruption
import TienKung.Sbus.Resync
import TienKung.Sbus.Crc
import TienKung.Sbus.CrcCompute
import TienKung.Monitor.MonitorPlugin
import TienKung.FastRos.FastConnection
import TienKung.FastRos.Delivery
import TienKung.FastRos.Interleaving
import TienKung.FastRos.NodeHandle
import TienKung.FastRos.Isolation
import TienKung.FastRos.ThreadsManager
import TienKung.Util.LockFreeSteps
import TienKung.Util.Channel
import TienKung.Util.Rate
import TienKung.Devices.EyouPosition
import TienKung.Devices.ZeroErrTorque
import TienKung.Devices.PositionLoops
import TienKung.Devices.ZeroErrPosition
import TienKung.Devices.EyouRamp
import TienKung.Devices.EyouVelocity
import TienKung.Soem.Stations
import TienKung.Soem.BusRuns
import TienKung.Soem.PrivateLines
import TienKung.Soem.MotorLines
import TienKung.Soem.StatusLines
import TienKung.Imu.ComplementaryFilter
import TienKung.Imu.Orientation
import TienKung.Imu.Convergence
