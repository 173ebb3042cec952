import ContextProtocol.Message.Completion
import ContextProtocol.Message.Handshake
import ContextProtocol.Message.LogMessage
import ContextProtocol.Message.Prompt
import ContextProtocol.Message.Resource
import ContextProtocol.Message.Sampling
import ContextProtocol.Message.Tool
import ContextProtocol.Message.Wire
import ContextProtocol.Proofs.Decimal.FloatBits
import ContextProtocol.Proofs.Decimal.ReadBack
import ContextProtocol.Proofs.Json.Numeral
import ContextProtocol.Proofs.Json.FloatText
import ContextProtocol.Proofs.Json.Quote
import ContextProtocol.Proofs.Json.Utf8
import ContextProtocol.Proofs.Json.Locality
import ContextProtocol.Proofs.Json.Payload
import ContextProtocol.Proofs.Json.Written
import ContextProtocol.Proofs.Dict
import ContextProtocol.Proofs.Json.Value
import ContextProtocol.Proofs.Json.Reading
import ContextProtocol.Proofs.Shape.RoundTrip
import ContextProtocol.Proofs.Shape.RecordTrip
import ContextProtocol.Proofs.Message.Tagged
import ContextProtocol.Proofs.Message.Content
import ContextProtocol.Proofs.Message.Params
import ContextProtocol.Proofs.Message.Envelope
import ContextProtocol.Proofs.Json.Alike
import ContextProtocol.Proofs.Message.Payloads
import ContextProtocol.Proofs.Message.Frame
import ContextProtocol.Proofs.Message.Stages
import ContextProtocol.Proofs.Message.Constructible
import ContextProtocol.Proofs.Json.Recovered
import ContextProtocol.Proofs.Shape.Inversion
import ContextProtocol.Proofs.Shape.Rawless
import ContextProtocol.Proofs.Message.ErrorData
import ContextProtocol.Proofs.Message.ErrorInfo
import ContextProtocol.Proofs.Message.ErrorRegistry
import ContextProtocol.Proofs.Message.Response
import ContextProtocol.Proofs.Message.Schema
import ContextProtocol.Proofs.Message.SchemaTrip
import ContextProtocol.Proofs.Message.Tool
import ContextProtocol.Proofs.Message.EntryPoints
import ContextProtocol.Proofs.Json.Excerpt
import ContextProtocol.Proofs.Json.Citation
import ContextProtocol.Proofs.Json.Denotes
import ContextProtocol.Proofs.Json.Matches
import ContextProtocol.Proofs.Shape.Gather
import ContextProtocol.Proofs.Shape.Agree
import ContextProtocol.Proofs.Message.Agreement
import ContextProtocol.Proofs.Shape.OnValue
import ContextProtocol.Proofs.Message.ErrorAnswer
import ContextProtocol.Proofs.Shape.Sparse
import ContextProtocol.Proofs.Message.PlainTrip
import ContextProtocol.Proofs.Message.Registration
import ContextProtocol.Proofs.Message.Obtained
import ContextProtocol.Proofs.Message.FrameAnswer
import ContextProtocol.Proofs.Json.Spelling
import ContextProtocol.Proofs.Shape.Column
import ContextProtocol.Proofs.Message.Verbatim
import ContextProtocol.Proofs.Message.ToolConstruction
import ContextProtocol.Proofs.Message.SchemaViolations
import ContextProtocol.Proofs.Message.ContentAnswer
import ContextProtocol.Proofs.Shape.Members
import ContextProtocol.Proofs.Message.Dispatch
import ContextProtocol.Proofs.Message.SchemaKeywords
import ContextProtocol.Proofs.Message.NestedPayloads
import ContextProtocol.Proofs.Message.TagFirst
import ContextProtocol.Proofs.Message.TagSplit
import ContextProtocol.Proofs.Message.Undeclared
import ContextProtocol.Proofs.Message.StableSteps
import ContextProtocol.Proofs.Message.ResourceConstruction
import ContextProtocol.Proofs.Decimal.Value
import ContextProtocol.Proofs.Decimal.FloatOrder
import ContextProtocol.Proofs.Message.SamplingConstruction
import ContextProtocol.Proofs.Message.ProgressReports
import ContextProtocol.Proofs.Message.Fallback
import ContextProtocol.Proofs.Message.PromptArguments
import ContextProtocol.Proofs.Config
import ContextProtocol.Proofs.Message.ExperimentalAnswers
import ContextProtocol.Proofs.Message.TagSplit
