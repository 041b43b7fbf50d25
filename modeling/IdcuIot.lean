import IdcuIot.Bounds
import IdcuIot.CommManager.CommandTlv
import IdcuIot.CommManager.Commands
import IdcuIot.CommManager.Receive
import IdcuIot.CommManager.SelectTag
import IdcuIot.CommandBytes
import IdcuIot.Driver.Gn1200Crc
import IdcuIot.Driver.IdcuMessages
import IdcuIot.Driver.IdcuQueueFull
import IdcuIot.Driver.Plcs.Once
import IdcuIot.Driver.Plcs.Type36
import IdcuIot.Driver.Poller
import IdcuIot.EnvConfig
import IdcuIot.Etri.Arrays
import IdcuIot.Etri.Messages
import IdcuIot.IoTManager.IoStatus
import IdcuIot.IoTManager.SyncCount
import IdcuIot.IoTManager.Tcp
import IdcuIot.M2MManager.Capacity
import IdcuIot.M2MManager.NodeCommands
import IdcuIot.M2MManager.TimeSync
import IdcuIot.M2MManager.WholeFrames
import IdcuIot.Pipeline.Exact
import IdcuIot.PointParser
import IdcuIot.Recovery
import IdcuIot.RemoteCommand.Whole
import IdcuIot.SerialSource.Crc
import IdcuIot.SetTime
import IdcuIot.SetupManager.NetworkConfig
import IdcuIot.SetupManager.ScriptLines
import IdcuIot.SetupManager.SecurityConfig
import IdcuIot.SfSource.SerialLine
import IdcuIot.StringTrim
import IdcuIot.TagServer.Handles
import IdcuIot.TagServer.Registered
import IdcuIot.Transport
import IdcuIot.UartManager.Answers
import IdcuIot.UartManager.Receive
