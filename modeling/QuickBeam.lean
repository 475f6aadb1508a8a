import QuickBeam.Convert.MapProxyRuns
import QuickBeam.Convert.RoundTrip
import QuickBeam.Js.BundleLabels
import QuickBeam.Js.ExportPatterns
import QuickBeam.Js.NodePath
import QuickBeam.Js.NodeResolution
import QuickBeam.Locks.LockOrder
import QuickBeam.Messaging.MessageChannel
import QuickBeam.Messaging.WebSocket
import QuickBeam.Napi.AsyncWork
import QuickBeam.Napi.ThreadSafeFunction
import QuickBeam.Native.ContextIds
import QuickBeam.Native.ContextOrder
import QuickBeam.Native.ContextWorkers
import QuickBeam.Native.Fetch
import QuickBeam.Native.HostCallAnswers
import QuickBeam.Native.HostImport
import QuickBeam.Native.RequestDelivery
import QuickBeam.Native.SideEffectOrder
import QuickBeam.Native.TimerOrder
import QuickBeam.Streams.ReadableStream
import QuickBeam.Streams.WritableStream
import QuickBeam.Text.Base64
import QuickBeam.Text.DecoderChunking
import QuickBeam.Vm.Builtin.OrderedCollections
import QuickBeam.Vm.Bytecode.Checksum
import QuickBeam.Vm.Bytecode.SourcePositions
import QuickBeam.Vm.Bytecode.WideString
import QuickBeam.Vm.Compiler.PoolSafety
import QuickBeam.Vm.Program.StoreSafety
import QuickBeam.Vm.Runtime.BitOperators
import QuickBeam.Vm.Runtime.CapturedSlots
import QuickBeam.Vm.Runtime.DirectLoops
import QuickBeam.Vm.Runtime.Export
import QuickBeam.Vm.Runtime.OperandSafety
import QuickBeam.Vm.Runtime.SharedBindings
import QuickBeam.Vm.Runtime.StringSearch
import QuickBeam.Vm.Runtime.Suspension
import QuickBeam.Wasm.HostImports
import QuickBeam.Wasm.ImportPreservation
import QuickBeam.Wasm.ImportedMemory
import QuickBeam.Wasm.IndexSpaces
import QuickBeam.Wasm.Leb128Decoders
import QuickBeam.Web.Buffer
import QuickBeam.Web.EventRuns
import QuickBeam.Web.EventSource
import QuickBeam.Web.Headers
import QuickBeam.Web.ResponseBody
import QuickBeam.Web.UrlSerialisation
