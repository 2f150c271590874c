import MessageKeys.Backup
import MessageKeys.Catalog.Editor
import MessageKeys.Catalog.File
import MessageKeys.Catalog.Messages
import MessageKeys.Catalog.OfJson
import MessageKeys.Catalog.Tree
import MessageKeys.Command.Arguments
import MessageKeys.Command.Report
import MessageKeys.Command.Run
import MessageKeys.Command.Style
import MessageKeys.Config.Basic
import MessageKeys.Config.Catalogs
import MessageKeys.Config.Discovery
import MessageKeys.Config.File
import MessageKeys.Decimal.Binary
import MessageKeys.Decimal.Reader
import MessageKeys.Decimal.Shortest
import MessageKeys.Dictionary.Basic
import MessageKeys.Dictionary.Entries
import MessageKeys.Disk
import MessageKeys.FileTree
import MessageKeys.Glob.Pattern
import MessageKeys.Glob.Table
import MessageKeys.Glob.Walk
import MessageKeys.Json.Document
import MessageKeys.Json.Numeral
import MessageKeys.Json.Printer
import MessageKeys.Json.Quoted
import MessageKeys.Json.Token
import MessageKeys.Json.Value
import MessageKeys.Key
import MessageKeys.KeyStore
import MessageKeys.Main
import MessageKeys.Migration.Basic
import MessageKeys.Migration.Run
import MessageKeys.Path
import MessageKeys.Project
import MessageKeys.Reference.Expression
import MessageKeys.Reference.Site
import MessageKeys.Reference.Index
import MessageKeys.Reference.Literal
import MessageKeys.Reference.Renaming
import MessageKeys.Reference.Scanner
import MessageKeys.Reference.SourceFile
import MessageKeys.Route
import MessageKeys.Selection
import MessageKeys.Suggestion
import MessageKeys.Text.Alphabetic
import MessageKeys.Text.CharacterClass
import MessageKeys.Text.Extender
import MessageKeys.Text.Split
import MessageKeys.Text.Marks
import MessageKeys.Text.Unprintable
import MessageKeys.Workspace
import MessageKeys.Proofs.Workspace
import MessageKeys.Proofs.Backup
import MessageKeys.Proofs.KeyStore
import MessageKeys.Proofs.Migration.Atomicity
import MessageKeys.Proofs.Dictionary
import MessageKeys.Proofs.Reference.SiteOrder
import MessageKeys.Proofs.Reference.Index
import MessageKeys.Proofs.Text
import MessageKeys.Proofs.Reference.Grammar
import MessageKeys.Proofs.Reference.Literal
import MessageKeys.Proofs.Reference.Scanner
import MessageKeys.Proofs.Route
import MessageKeys.Proofs.Decimal
import MessageKeys.Proofs.Suggestion
import MessageKeys.Proofs.Reference.Renaming
import MessageKeys.Proofs.Reference.Visibility
import MessageKeys.Proofs.Reference.Passes
import MessageKeys.Proofs.Reference.Remaining
import MessageKeys.Proofs.Catalog.Tree
import MessageKeys.Proofs.Catalog.Leaves
import MessageKeys.Proofs.Catalog.Move
import MessageKeys.Proofs.Reference.Syntax
import MessageKeys.Proofs.Reference.Exactness
import MessageKeys.Proofs.Catalog.File
import MessageKeys.Proofs.Migration.Undoing
import MessageKeys.Proofs.Migration.Course
import MessageKeys.Proofs.Migration.Turns
import MessageKeys.Proofs.Migration.Lockstep
import MessageKeys.Proofs.Catalog.FlatMessages
import MessageKeys.Proofs.Catalog.WrittenForm
import MessageKeys.Proofs.Reference.Precedence
import MessageKeys.Proofs.Reference.Rescan
import MessageKeys.Proofs.Catalog.FlatView
import MessageKeys.Proofs.Migration.Tracking
import MessageKeys.Proofs.Migration.Retention
import MessageKeys.Proofs.Path
import MessageKeys.Proofs.Place
import MessageKeys.Proofs.Search
import MessageKeys.Proofs.Command.Announced
import MessageKeys.Proofs.Selection
import MessageKeys.Proofs.SourceFiles
import MessageKeys.Proofs.Migration.Modified
import MessageKeys.Proofs.Command.Refresh
import MessageKeys.Proofs.Reference.Agreement
import MessageKeys.Proofs.Reference.ScanOrder
import MessageKeys.Proofs.Reference.Effect
import MessageKeys.Proofs.Reference.Repetition
import MessageKeys.Proofs.Key
import MessageKeys.Proofs.Catalog.Collisions
import MessageKeys.Proofs.Reference.LongerNames
import MessageKeys.Proofs.Suggestion.Listing
import MessageKeys.Proofs.Json.Members
import MessageKeys.Proofs.Catalog.InPlace
import MessageKeys.Proofs.Catalog.Inserting
import MessageKeys.Proofs.Catalog.Restoring
import MessageKeys.Proofs.Catalog.Conversion
import MessageKeys.Proofs.KeyStore.Renaming
import MessageKeys.Proofs.Command.Seeding
import MessageKeys.Proofs.Selection.Collecting
import MessageKeys.Proofs.Glob.Escaping
import MessageKeys.Proofs.Glob.Directory
import MessageKeys.Proofs.Config.Placeholder
import MessageKeys.Proofs.Config.Discovery
import MessageKeys.Proofs.Config.Discovered
import MessageKeys.Proofs.Reference.MemberPass
import MessageKeys.Proofs.Migration.RepeatedWrites
import MessageKeys.Proofs.Path.Parent
import MessageKeys.Proofs.Config.Nearest
