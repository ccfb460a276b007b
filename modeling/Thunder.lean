import Thunder.Library.Run
import Thunder.Library.Loop
import Thunder.Core.Queue
import Thunder.Core.CategoryFlag
import Thunder.Core.CategoryInsert
import Thunder.Core.CategoryOrder
import Thunder.Core.CyclicBuffer
import Thunder.Core.CyclicContent
import Thunder.Core.CyclicFifo
import Thunder.Core.CyclicReserve
import Thunder.Core.DesignatorAgreement
import Thunder.Core.Frame
import Thunder.Core.FrameVariableNumber
import Thunder.Core.IPCCompletion
import Thunder.Core.IPCFraming
import Thunder.Core.JSONRoundTrip
import Thunder.Core.JSONVariant
import Thunder.Core.JobExclusion
import Thunder.Core.JobKept
import Thunder.Core.JobProgress
import Thunder.Core.MessageCodec
import Thunder.Core.Parser
import Thunder.Core.ResourceMonitor
import Thunder.Core.Revoke
import Thunder.Core.StreamText
import Thunder.Core.StreamTypeLengthValue
import Thunder.Core.VariantRuns
import Thunder.Messaging.MessageDataBuffer
import Thunder.Messaging.SettingsHandOver
import Thunder.Web.WebSocketEncoder
import Thunder.Web.WebSocketLink
import Thunder.Core.ValueRecorder
import Thunder.Core.WorkerPool
import Thunder.Server.Condition
import Thunder.Plugins.DeviceKeys
import Thunder.Plugins.EventObserver
import Thunder.Plugins.EventStatus
import Thunder.Plugins.FileToServe
import Thunder.Core.ProxyPool
import Thunder.Core.ProxyMap
import Thunder.Com.ProcessShutdown
import Thunder.Plugins.KeyRepeat
import Thunder.Plugins.ObjectLookup
import Thunder.Plugins.ChannelOutput
import Thunder.Plugins.VirtualInput
import Thunder.Server.Authentication
import Thunder.Server.ConnectionServer
import Thunder.Server.ThrottleQueue
import Thunder.Server.Startup
import Thunder.Server.DefaultSecurity
import Thunder.Server.Evaluation
import Thunder.Server.Override
import Thunder.Core.SynchronousChannel
import Thunder.Com.RemoteConnectionMap
import Thunder.Core.TimerType
import Thunder.Core.Time
import Thunder.Core.StepBack
import Thunder.Core.IPCProgress
import Thunder.Core.JSONBuffer
import Thunder.Core.JSONNumberExact
import Thunder.Core.JSONNumberFile
import Thunder.Core.FileNormalForm
import Thunder.Core.MessagePackTraps
import Thunder.Core.TimeISO8601Text
import Thunder.Web.URLEscape
import Thunder.Core.HexString
import Thunder.Core.Base64
import Thunder.Core.TextSegments
import Thunder.Core.NumberText
import Thunder.Core.FrameCapacity
import Thunder.Web.URLText
import Thunder.Messaging.ControlList
import Thunder.Core.TimeHTTPShape
import Thunder.Web.URLBase64
import Thunder.Com.IteratorType
import Thunder.Core.ProxyList
import Thunder.Core.IPFrame
import Thunder.Core.DataElementBits
import Thunder.Core.DataElementSearch
import Thunder.Core.DataElementResize
import Thunder.Core.LinkedDataElement
