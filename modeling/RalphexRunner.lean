import RalphexRunner.Semantics.Transition
import RalphexRunner.Semantics.Trace
import RalphexRunner.Semantics.Task
import RalphexRunner.Semantics.Broadcast
import RalphexRunner.Text.Ansi
import RalphexRunner.LogStream.Close
import RalphexRunner.Job.LineAssembler
import RalphexRunner.Agent.Outcome
import RalphexRunner.Ipc.Follow
import RalphexRunner.PullRequest.Sequence
import RalphexRunner.Agent.Finish
import RalphexRunner.Agent.Run
import RalphexRunner.Agent.Steps
import RalphexRunner.Agent.Verdict
import RalphexRunner.Agent.Tasks
import RalphexRunner.Progress.Snapshots
import RalphexRunner.Agent.Timeline
import RalphexRunner.Semantics.Semaphore
import RalphexRunner.Agent.Slot
import RalphexRunner.Agent.Holder
import RalphexRunner.Agent.Exit
import RalphexRunner.Agent.Accounts
import RalphexRunner.Text.Escapes
import RalphexRunner.LogStream.Views
import RalphexRunner.Agent.Output
import RalphexRunner.Job.Cuts
import RalphexRunner.Ipc.Framing
import RalphexRunner.Protocol.Retry
import RalphexRunner.Config.Parse
import RalphexRunner.Service.Plist
import RalphexRunner.Service.Install
import RalphexRunner.Semantics.Budget
import RalphexRunner.Agent.Budget
import RalphexRunner.Semantics.Signal
import RalphexRunner.Progress.Wakeups
import RalphexRunner.Progress.Delivery
import RalphexRunner.LogStream.Retention
import RalphexRunner.Text.Encoding
import RalphexRunner.Job.Parts
import RalphexRunner.Agent.Copy
import RalphexRunner.Agent.Phases
import RalphexRunner.Plan.Parse
import RalphexRunner.Plan.Endings
import RalphexRunner.Plan.Reading
import RalphexRunner.Text.Percent
import RalphexRunner.Text.Url
import RalphexRunner.Protocol.Endpoints
import RalphexRunner.Agent.Heartbeat
import RalphexRunner.Agent.Directory
import RalphexRunner.Agent.Handover
import RalphexRunner.PullRequest.Parsing
import RalphexRunner.PullRequest.Effects
import RalphexRunner.Agent.Titles
import RalphexRunner.Job.Branches
import RalphexRunner.Progress.Directories
import RalphexRunner.Protocol.Body
import RalphexRunner.Text.Json
import RalphexRunner.Text.JsonValue
import RalphexRunner.Ipc.Responses
import RalphexRunner.PullRequest.Endings
import RalphexRunner.Ipc.Quotes
import RalphexRunner.Ipc.Frames
import RalphexRunner.Text.JsonCodec
import RalphexRunner.Ipc.Codec
import RalphexRunner.Client.Session
import RalphexRunner.Ipc.Bind
import RalphexRunner.Service.Replace
import RalphexRunner.Protocol.Bodies
import RalphexRunner.Protocol.Client
import RalphexRunner.Job.Group
import RalphexRunner.Client.Describe
import RalphexRunner.Agent.Openings
import RalphexRunner.Ipc.Serve
import RalphexRunner.Ipc.Clients
