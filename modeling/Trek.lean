import Trek.Session.Branched
import Trek.Agent.Answers
import Trek.Agent.Run
import Trek.Undo.Exact
import Trek.Store.Restore
import Trek.Store.Concurrent
import Trek.Harness.Survive
import Trek.Session.Fork
import Trek.Ai.Replay
import Trek.Ai.EventStream
import Trek.Tui.Chunks
import Trek.Tui.Lossless
import Trek.Tui.Differential
import Trek.Tools.Snapshot
import Trek.Tools.MutationQueue
import Trek.Harness.Writes
import Trek.Harness.Queues
import Trek.Gate.Halt
import Trek.Gate.Reservations
import Trek.Gate.Idempotent
import Trek.Memory.Reindex
import Trek.Settings.Reload
import Trek.Domains.Workflows
import Trek.Harness.Jsonl
import Trek.Compaction.Summaries
import Trek.Tools.HarnessTruncate
import Trek.Gate.Branches
import Trek.Gate.ReadFirst
import Trek.Prompt.NextTurn
import Trek.Telegram.Guests
import Trek.Prompt.QueueDisplay
import Trek.Auth.Kept
import Trek.Compaction.Budget
import Trek.Compaction.ToolPairs
import Trek.Session.Abandoned
import Trek.Tools.DiffString
import Trek.Schedule.Run
import Trek.Undo.LastMutation
import Trek.Tools.EditSubstitution
import Trek.Tools.EditUnique
import Trek.Packages.Selector
import Trek.Harness.UuidOrder
import Trek.Memory.IndexedPaths
import Trek.Compaction.Branch
import Trek.Prompt.PlanBlock
import Trek.Models.FullNames
import Trek.Prompt.Templates
import Trek.Runtime.Stripped
import Trek.Tui.FocusRuns
import Trek.Editor.WrapWidth
import Trek.Editor.Expand
import Trek.Editor.Steps
import Trek.Keys.Agreement
import Trek.Ai.Coercion
import Trek.Effort.Modes
import Trek.Tools.Read
import Trek.Trace.Cycles
import Trek.Session.Migrated
import Trek.Domains.Replies
import Trek.Runtime.Retry
import Trek.Session.TreeLayout
import Trek.Ai.Assembly
import Trek.Editor.Tiling
import Trek.Tui.Fuzzy
import Trek.Domains.LessonHistory
