import RubyServer.Json.Printer
import RubyServer.Json.Reader
import RubyServer.Proofs.Feature.Formatting
import RubyServer.Proofs.Forest.Detached
import RubyServer.Proofs.Lint.Indentation
import RubyServer.Proofs.Linter.Supersession
import RubyServer.Proofs.Server.Shutdown
import RubyServer.Proofs.SettingsCache.Invalidation
import RubyServer.Proofs.Store.EventLog
import RubyServer.Rehearsal.Documents
import RubyServer.Rehearsal.Linting
import RubyServer.Rehearsal.Observers
import RubyServer.Rehearsal.Serving
import RubyServer.Rehearsal.Talking
import RubyServer.Proofs.Text.Places
import RubyServer.Proofs.Document.Offsets
import RubyServer.Proofs.Store.Batches
import RubyServer.Proofs.Lint.TrailingBlanks
import RubyServer.Proofs.Tree.Walk
import RubyServer.Proofs.Lint.Switches
import RubyServer.Proofs.Feature.Literals
import RubyServer.Proofs.Feature.Ranges
import RubyServer.Proofs.Feature.Idempotence
import RubyServer.Proofs.Lint.Placement
import RubyServer.Proofs.Feature.Outline
import RubyServer.Proofs.Feature.Containment
import RubyServer.Proofs.Feature.Highlights
import RubyServer.Proofs.Feature.CommentBlocks
import RubyServer.Proofs.Lint.Redefinitions
import RubyServer.Proofs.Registry.Dispatch
import RubyServer.Proofs.Lint.Floor
import RubyServer.Proofs.Forest.Counters
import RubyServer.Proofs.Source.Errors
