import TableStore.Action
import TableStore.Binary64
import TableStore.Cache.Scan
import TableStore.Cache.Stats
import TableStore.Command
import TableStore.Config
import TableStore.Config.File
import TableStore.Database
import TableStore.Document.File
import TableStore.Document.Registry
import TableStore.Document.Rows
import TableStore.Document.Value
import TableStore.Engine
import TableStore.Error
import TableStore.FileSystem.Basic
import TableStore.FileSystem.Tree
import TableStore.Filter
import TableStore.Hex
import TableStore.Json.Printer
import TableStore.Json.Token
import TableStore.Json.Tree
import TableStore.KeyedList
import TableStore.Path
import TableStore.Proofs.Accounting
import TableStore.Proofs.Action
import TableStore.Proofs.Atomicity
import TableStore.Proofs.CacheHistory
import TableStore.Proofs.CacheInvisible
import TableStore.Proofs.Canonical
import TableStore.Proofs.Coherence
import TableStore.Proofs.Confinement
import TableStore.Proofs.Contents
import TableStore.Proofs.Counting
import TableStore.Proofs.Directories
import TableStore.Proofs.Documents
import TableStore.Proofs.Encoding
import TableStore.Proofs.Except
import TableStore.Proofs.FileContents
import TableStore.Proofs.FileSystem
import TableStore.Proofs.Files
import TableStore.Proofs.Grounded
import TableStore.Proofs.Integrity
import TableStore.Proofs.Interchange
import TableStore.Proofs.Interruption
import TableStore.Proofs.KeyedList
import TableStore.Proofs.Layout
import TableStore.Proofs.Leftovers
import TableStore.Proofs.Loads
import TableStore.Proofs.Location
import TableStore.Proofs.Opening
import TableStore.Proofs.Parents
import TableStore.Proofs.PartialFailure
import TableStore.Proofs.Path
import TableStore.Proofs.Plan
import TableStore.Proofs.RoundTrip
import TableStore.Proofs.Saves
import TableStore.Proofs.Scanning
import TableStore.Proofs.Separation
import TableStore.Proofs.Session
import TableStore.Proofs.Simulation
import TableStore.Proofs.WellFormed
import TableStore.Registry
import TableStore.Row
import TableStore.Schema
import TableStore.Storage.Basic
import TableStore.Storage.Files
import TableStore.Storage.Memory
import TableStore.Text.Blank
import TableStore.Text.Identifier
import TableStore.Text.Utf8
import TableStore.Toml.Document
import TableStore.Toml.Scalar
import TableStore.Toml.Table
import TableStore.Toml.Text
import TableStore.Value
import TableStore.Proofs.Requests
import TableStore.Proofs.Insertion
import TableStore.Proofs.Updating
import TableStore.Proofs.Catalogue
import TableStore.Proofs.Parts
import TableStore.Proofs.Commuting
import TableStore.Proofs.Independence
import TableStore.Proofs.CurrentScans
import TableStore.Proofs.Deletion
import TableStore.Proofs.InsertedRow
import TableStore.Proofs.Readings
import TableStore.Proofs.AffectedRows
import TableStore.Proofs.Repetition
import TableStore.Proofs.Definition
import TableStore.Proofs.Grammar
import TableStore.Proofs.Lexemes
import TableStore.Proofs.Literals
import TableStore.Proofs.Utf8
import TableStore.Proofs.Lexing
import TableStore.Proofs.Parsing
import TableStore.Proofs.TableDocuments
import TableStore.Proofs.ForeignMembers
import TableStore.Proofs.Diagnostics
import TableStore.Proofs.Refusals
import TableStore.Proofs.RootFiles
import TableStore.Proofs.Quoting
import TableStore.Proofs.Configuration
