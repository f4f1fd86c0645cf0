import Mimic.Foundation.ParentForest
import Mimic.Foundation.GuardedRun
import Mimic.Foundation.SparseWrite
import Mimic.Foundation.MapSum
import Mimic.Foundation.Outcomes
import Mimic.Foundation.Kept
import Mimic.Foundation.Mirrors
import Mimic.Foundation.BigEndian
import Mimic.Foundation.CheckedList
import Mimic.Foundation.Terminal
import Mimic.Foundation.Records
import Mimic.Foundation.Pieces
import Mimic.Foundation.Occurrences
import Mimic.Foundation.Calendar
import Mimic.Foundation.Checked
import Mimic.Foundation.Paging
import Mimic.Foundation.Comparators
import Mimic.Foundation.CommonPrefix
import Mimic.Foundation.PathTree
import Mimic.Text
import Mimic.Vfs.Nodes
import Mimic.Vfs.Arena
import Mimic.Vfs.Skeleton
import Mimic.Vfs.Calls
import Mimic.Vfs.WellFormed
import Mimic.Vfs.Depth
import Mimic.Vfs.Accounting
import Mimic.Vfs.Resolve
import Mimic.Vfs.EntryPath
import Mimic.Vfs.MkdirP
import Mimic.Vfs.Placement
import Mimic.Vfs.View
import Mimic.Vfs.EntryNames
import Mimic.Vfs.Confined
import Mimic.Vfs.Lookup
import Mimic.Vfs.Paths
import Mimic.Vfs.Renaming
import Mimic.Vfs.Branches
import Mimic.Vfs.Copying
import Mimic.Vfs.CopyTree
import Mimic.Vfs.Preorder
import Mimic.Vfs.Traversal
import Mimic.Vfs.FileTree
import Mimic.Vfs.Refinement
import Mimic.Vfs.Edits
import Mimic.Shell.Parser
import Mimic.Shell.Substitutions
import Mimic.Shell.Splitting
import Mimic.Shell.Arith
import Mimic.Shell.ArithDepth
import Mimic.Shell.ArithTokens
import Mimic.Shell.ArithGrammar
import Mimic.Shell.State
import Mimic.Shell.LineEditor
import Mimic.Shell.LineBounds
import Mimic.Shell.LineLength
import Mimic.Shell.LineEscapes
import Mimic.Shell.LineEcho
import Mimic.Shell.Prompt
import Mimic.Commands.Screens
import Mimic.Shell.Interp
import Mimic.Shell.Trace
import Mimic.Shell.Words
import Mimic.Shell.RedirectWords
import Mimic.Commands.Peak
import Mimic.Shell.Syntax
import Mimic.Shell.QuotedWords
import Mimic.Shell.Rendering
import Mimic.Shell.Redirects
import Mimic.Shell.ReadBack
import Mimic.Shell.Balance
import Mimic.Shell.Isolation
import Mimic.Shell.Heredoc
import Mimic.Shell.Segments
import Mimic.Shell.Oblivious
import Mimic.Shell.Nested
import Mimic.Shell.SyntaxErrors
import Mimic.Shell.Stderr
import Mimic.Shell.LastStatus
import Mimic.Shell.Evidence
import Mimic.Shell.Invariants
import Mimic.Shell.Scripts
import Mimic.Shell.Identity
import Mimic.Shell.FileSteps
import Mimic.Commands.Listing
import Mimic.Commands.LineFiles
import Mimic.Commands.Accounts
import Mimic.Commands.Secrets
import Mimic.Network.Limiter
import Mimic.Network.Wire
import Mimic.Network.Sftp
import Mimic.Network.SftpOutcome
import Mimic.Network.Quarantine
import Mimic.Network.Quota
import Mimic.Network.SftpFraming
import Mimic.Network.SftpBuffer
import Mimic.Network.SftpStream
import Mimic.Network.SftpHandles
import Mimic.Network.SftpWrites
import Mimic.Network.SftpReads
import Mimic.Network.Handler
import Mimic.Network.ChannelEnd
import Mimic.Network.Scp
import Mimic.Network.ScpSink
import Mimic.Network.ScpNames
import Mimic.Network.ScpStream
import Mimic.Network.UploadHashes
import Mimic.Network.Uploads
import Mimic.Network.SftpMutations
import Mimic.Network.Connection
import Mimic.Shell.Complete
import Mimic.Network.SftpPaths
import Mimic.Network.ChannelLife
import Mimic.Network.Keystrokes
import Mimic.Network.ChannelIsolation
import Mimic.Network.Passwords
import Mimic.Commands.Tar
import Mimic.Commands.Files
import Mimic.Commands.MakeParents
import Mimic.Commands.Extraction
import Mimic.Commands.TarRecords
import Mimic.Commands.MemberNames
import Mimic.Commands.TarWalk
import Mimic.Commands.TarRestore
import Mimic.Commands.TarRoundTrip
import Mimic.Commands.Glob
import Mimic.Commands.WordMatch
import Mimic.Commands.AwkProgram
import Mimic.Commands.AwkRegex
import Mimic.Commands.Dates
import Mimic.Commands.Base64
import Mimic.Commands.Sed
import Mimic.Commands.SedLines
import Mimic.Commands.SortLines
import Mimic.Commands.Seq
import Mimic.Commands.Readers
import Mimic.Commands.Grep
import Mimic.Commands.GrepReport
import Mimic.Commands.Redaction
import Mimic.Commands.Modes
import Mimic.Commands.TreeLists
import Mimic.Commands.Downloads
import Mimic.Commands.Sessions
import Mimic.Network.ConnectionFiles
