import Araya.Runtime.Withdrawal
import Araya.Runtime.Sticky
import Araya.Runtime.InFlight
import Araya.Runtime.Children
import Araya.Runtime.Resolve
import Araya.Runtime.ScanGate
import Araya.Events.Isolation
import Araya.Persistence.Durable
import Araya.Session.Replay
import Araya.Agent.Feedback
import Araya.Agent.Retry
import Araya.Agent.Brackets
import Araya.Agent.Wakeups
import Araya.Agent.Pairing
import Araya.Agent.Conservation
import Araya.Agent.Transcript
import Araya.Persistence.Recovery
import Araya.Persistence.Drain
import Araya.Goal.Agreement
import Araya.Goal.Budget
import Araya.Subagents.Delegation
import Araya.Jobs.Listing
import Araya.Agent.Replay
import Araya.Llm.Driver
import Araya.Mcp.Swap
import Araya.Workflow.Brackets
import Araya.Lsp.Instances
import Araya.Lsp.Documents
import Araya.Fs.Updates
import Araya.Query.Agreement
import Araya.Mcp.Signals
import Araya.Agent.Minting
import Araya.Query.Fidelity
import Araya.Query.Isolation
import Araya.Llm.Framing
import Araya.Runtime.Ownership
import Araya.Runtime.EffectStack
import Araya.Runtime.Access
import Araya.Runtime.Visibility
import Araya.Runtime.Publication
import Araya.Runtime.Refinement
import Araya.Runtime.Ending
import Araya.Query.Lineage
import Araya.Query.Notice
import Araya.Query.EventTrace
import Araya.Agent.Splice
import Araya.Agent.Forked
import Araya.SystemPrompt.Interpolation
import Araya.SystemPrompt.Registrations
import Araya.Mcp.Naming
import Araya.Mcp.Frames
import Araya.Lsp.Translate
import Araya.App.Wrap
import Araya.Lsp.Framing
import Araya.Lsp.Defaults
import Araya.Llm.Shapes
import Araya.Session.Compaction
import Araya.Agent.PromptForm
import Araya.Subagents.Structured
import Araya.Subagents.Capture
import Araya.Shell.Capture
import Araya.Fs.Edits
import Araya.Workflow.Frames
import Araya.Export.Archive
import Araya.Attachment.Store
import Araya.Instructions.Budget
import Araya.Web.Projection
import Araya.Glob.Agreement
