import TddyCoder.PrStack.Integrity
import TddyCoder.PrStack.Concurrent
import TddyCoder.PrStack.LostUpdate
import TddyCoder.PrStack.ShownOrder
import TddyCoder.PrStack.InternalStatus
import TddyCoder.PrStack.Repoint
import TddyCoder.SessionRoom.Attribution
import TddyCoder.SessionRoom.Broadcasts
import TddyCoder.SessionSync.Epochs
import TddyCoder.SessionSync.Convergence
import TddyCoder.SessionRoom.DeltaStore
import TddyCoder.SessionRoom.DeltaFrames
import TddyCoder.Rpc.ResponseStream
import TddyCoder.Rpc.RequestStream
import TddyCoder.LiveKit.RoundTrip
import TddyCoder.Rpc.FrameCodec
import TddyCoder.Terminal.Paging
import TddyCoder.Terminal.ReplayModes
import TddyCoder.Terminal.Resize
import TddyCoder.Terminal.ScreenFeed
import TddyCoder.Terminal.InputDelivery
import TddyCoder.Terminal.Exit
import TddyCoder.Terminal.StreamOffset
import TddyCoder.Terminal.Continuity
import TddyCoder.CredentialSync.Convergence
import TddyCoder.CredentialSync.Delivery
import TddyCoder.CredentialSync.Admission
import TddyCoder.Build.ActionCache
import TddyCoder.Build.Order
import TddyCoder.Restructure.Overlay
import TddyCoder.Restructure.Tracking
import TddyCoder.Restructure.LineDiff
import TddyCoder.Restructure.ExactlyOnce
import TddyCoder.Restructure.StaleOps
import TddyCoder.ToolCalls.ResultFrames
import TddyCoder.ToolCalls.StrReplace
import TddyCoder.ToolCalls.Containment
import TddyCoder.Vaults.Revocation
import TddyCoder.Vaults.Latest
import TddyCoder.Vaults.Racing
import TddyCoder.Supervisor.OneProcess
import TddyCoder.Supervisor.StopSession
import TddyCoder.SessionAgents.Metadata
import TddyCoder.SessionAgents.Status
import TddyCoder.Workflow.Controller
import TddyCoder.SessionAgents.Conversations
