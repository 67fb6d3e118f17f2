import TrtShim.Bytes.Words
import TrtShim.Bytes.Reader
import TrtShim.Bytes.Bounds
import TrtShim.Bytes.Consumed
import TrtShim.Bytes.Decimal
import TrtShim.Bytes.Flags
import TrtShim.Containers.Dict
import TrtShim.Containers.Lists
import TrtShim.Containers.OrderedMap
import TrtShim.Layout.RowMajor
import TrtShim.Text.Brackets
import TrtShim.Text.Lines
import TrtShim.Text.Regex
import TrtShim.Text.Strings
import TrtShim.Text.Utf8
import TrtShim.Runs.Drain
import TrtShim.Runs.History
import TrtShim.Runs.Machine
import TrtShim.Runs.Objects
import TrtShim.Backend.Basic
import TrtShim.Backend.Blob
import TrtShim.Backend.RoundTrip
import TrtShim.Backend.Format
import TrtShim.Backend.Safety
import TrtShim.Backend.SplitIo
import TrtShim.Backend.TempFile
import TrtShim.Backend.Calibration
import TrtShim.Backend.Sizes
import TrtShim.Backend.Engine
import TrtShim.Backend.Load
import TrtShim.Backend.ZeroCopy
import TrtShim.Backend.Staged
import TrtShim.Backend.Buffers
import TrtShim.Backend.Device
import TrtShim.Backend.Build
import TrtShim.Backend.Compiler
import TrtShim.Backend.Leaks
import TrtShim.Shim.Dims
import TrtShim.Shim.Engine
import TrtShim.Shim.Streams
import TrtShim.Shim.Names
import TrtShim.Shim.Context
import TrtShim.Shim.Shapes
import TrtShim.Shim.Strides
import TrtShim.Shim.DynamicShapes
import TrtShim.Shim.Inference
import TrtShim.Shim.BufferSizes
import TrtShim.Shim.Profile
import TrtShim.Shim.Calibrator
import TrtShim.Shim.Config
import TrtShim.Shim.Network
import TrtShim.Shim.Session
import TrtShim.Shim.Builder
import TrtShim.Bytes.Memory
import TrtShim.Bytes.Stores
import TrtShim.Wire.Message
import TrtShim.Onnx.PbReader
import TrtShim.Onnx.OutputNames
import TrtShim.Onnx.Alignment
import TrtShim.Onnx.Bounds
import TrtShim.Onnx.Containment
import TrtShim.Tools.Declarations
import TrtShim.Tools.Generator
import TrtShim.Tools.Harness
import TrtShim.Tools.Infer
import TrtShim.Tools.Outputs
import TrtShim.Tools.Report
import TrtShim.Tools.Runner
import TrtShim.Tools.Scoreboard
import TrtShim.Tools.Stubs
