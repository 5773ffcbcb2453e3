import Jukebox.Text.Basic
import Jukebox.Text.Blank
import Jukebox.Lexeme
import Jukebox.Lexeme.Lexer
import Jukebox.Stream
import Jukebox.Query
import Jukebox.Query.Error
import Jukebox.Query.Parser
import Jukebox.Like
import Jukebox.Pattern
import Jukebox.Plan
import Jukebox.Plan.OfQuery
import Jukebox.Statement
import Jukebox.Completion
import Jukebox.Path
import Jukebox.Library.Catalogue
import Jukebox.Library.Rows
import Jukebox.Plan.Sound
import Jukebox.Library
import Jukebox.Toml.Node
import Jukebox.Toml.Quoted
import Jukebox.Toml.Reader
import Jukebox.Toml.Writer
import Jukebox.Path.Home
import Jukebox.Settings
import Jukebox.Settings.Merge
import Jukebox.Settings.Template
import Jukebox.Library.Database
import Jukebox.Files
import Jukebox.Settings.Discovery
import Jukebox.Settings.Warning
import Jukebox.Library.Disk
import Jukebox.Command
import Jukebox.Command.Player
import Jukebox.Command.Run
import Jukebox.Main
import Jukebox.Proofs.Query.Steps
import Jukebox.Proofs.Query.Descent
import Jukebox.Proofs.Query.Grammar
import Jukebox.Proofs.Lexeme.Reading
import Jukebox.Proofs.Lexeme.Layout
import Jukebox.Proofs.Query.WellFormed
import Jukebox.Proofs.Query.RoundTrip
import Jukebox.Proofs.Library.Tables
import Jukebox.Proofs.Library.History
import Jukebox.Proofs.Text.Order
import Jukebox.Proofs.Library.Cells
import Jukebox.Proofs.Plan.Sound
import Jukebox.Proofs.Library.Joined
import Jukebox.Proofs.Library.Arranged
import Jukebox.Proofs.Stream
import Jukebox.Proofs.Path.Parent
import Jukebox.Proofs.Path.Relative
import Jukebox.Proofs.Plan.Limits
import Jukebox.Proofs.Library.Meaning
import Jukebox.Proofs.Lexeme.Pieces
import Jukebox.Proofs.Query.Reach
import Jukebox.Proofs.Query.Viable
import Jukebox.Proofs.Query.Cursor
import Jukebox.Proofs.Library.Refusal
import Jukebox.Proofs.Query.Linked
import Jukebox.Proofs.Library.Linked
import Jukebox.Proofs.Library.Growth
import Jukebox.Proofs.Library.Additions
import Jukebox.Proofs.Pattern.Case
import Jukebox.Proofs.Plan.Case
import Jukebox.Proofs.Library.Case
import Jukebox.Proofs.Library.Resemblance
import Jukebox.Proofs.Toml.Quoted
import Jukebox.Proofs.Toml.Written
import Jukebox.Proofs.Settings.Reload
import Jukebox.Proofs.Pattern.Meaning
import Jukebox.Proofs.Plan.Parallel
import Jukebox.Proofs.Statement.Placeholders
import Jukebox.Proofs.Statement.Reading
import Jukebox.Proofs.Statement.Shape
import Jukebox.Proofs.Command.Init
import Jukebox.Proofs.Library.Reopening
import Jukebox.Proofs.Library.Stored
import Jukebox.Proofs.Query.Completion
import Jukebox.Proofs.Library.Completion
import Jukebox.Proofs.Settings.Governing
import Jukebox.Proofs.Settings.Merging
import Jukebox.Proofs.Query.Caret
import Jukebox.Proofs.Plan.Tree
import Jukebox.Proofs.Settings.Tilde
