import Vexcoder.Handoff.Bracketing
import Vexcoder.Conversation.TextDeltas
import Vexcoder.Task.SnapshotSteps
import Vexcoder.Task.SnapshotEvidence
import Vexcoder.Subtask.Joins
import Vexcoder.Task.WorkingSet
import Vexcoder.Config.RepoTrust
import Vexcoder.Server.PulseProtocol
import Vexcoder.Tools.TestPlaces
import Vexcoder.Stream.PlainText
import Vexcoder.Handoff.ToolStreams
import Vexcoder.Server.TaskWatch
import Vexcoder.Conversation.TextProtocol
import Vexcoder.App.BatchEvidence
import Vexcoder.Runtime.PartialArguments
import Vexcoder.Runtime.AccumulatorDiscipline
import Vexcoder.Conversation.TruncatedText
import Vexcoder.Conversation.LoopEnd
import Vexcoder.Conversation.AnchorRuns
import Vexcoder.Stream.BadFrames
import Vexcoder.Conversation.CondensedMessages
import Vexcoder.Subtask.LoadById
import Vexcoder.Task.AcceptedMessages
import Vexcoder.Subtask.TreeStore
import Vexcoder.Subtask.Leases
import Vexcoder.Tools.UniqueEdit
import Vexcoder.Tools.PatchFrame
import Vexcoder.Tools.SemanticRuns
import Vexcoder.Tools.IndexRuns
import Vexcoder.Tools.DiskPolicy
import Vexcoder.Runtime.EditLoop
import Vexcoder.Runtime.SafeWrite
import Vexcoder.Runtime.ContextCache
import Vexcoder.Runtime.MultiplexPrefix
import Vexcoder.Conversation.ChatCompat
import Vexcoder.App.MemoryReview
import Vexcoder.Runtime.SecretsComplete
import Vexcoder.Handoff.BatchRecords
import Vexcoder.Handoff.CallLifecycle
import Vexcoder.Task.AppendOnly
import Vexcoder.Ui.UndoRedo
import Vexcoder.Stream.HeldText
