import BooleanSearch.Query
import BooleanSearch.Field.Stored
import BooleanSearch.Settings.File
import BooleanSearch.Proofs.Token.Blanks
import BooleanSearch.Proofs.Token.Written
import BooleanSearch.Proofs.Rule.Characters
import BooleanSearch.Proofs.Grammar
import BooleanSearch.Proofs.Grammar.Recognition
import BooleanSearch.Proofs.Grammar.Depth
import BooleanSearch.Proofs.Node.Reading
import BooleanSearch.Proofs.Query.Compile
import BooleanSearch.Proofs.Query.Nesting
import BooleanSearch.Proofs.Node.Canonical
import BooleanSearch.Proofs.Query.Canonical
import BooleanSearch.Proofs.Json.Lexeme
import BooleanSearch.Proofs.Json.Value
import BooleanSearch.Proofs.Node.Levels
import BooleanSearch.Proofs.Query.Storage
import BooleanSearch.Proofs.Node.Below
import BooleanSearch.Proofs.Query.Scope
import BooleanSearch.Proofs.Query.Shape
import BooleanSearch.Proofs.Text.Form
import BooleanSearch.Proofs.Token.Form
import BooleanSearch.Proofs.Rule.Form
import BooleanSearch.Proofs.Query.Form
import BooleanSearch.Proofs.Rule.Term
import BooleanSearch.Proofs.Query.Terms
import BooleanSearch.Proofs.Record.Nesting
import BooleanSearch.Proofs.Token.Placed
import BooleanSearch.Proofs.Grammar.Readable
import BooleanSearch.Proofs.Node.Flatten
import BooleanSearch.Proofs.Node.Scope
import BooleanSearch.Proofs.Record.Meaning
import BooleanSearch.Proofs.Rule.Scanned
import BooleanSearch.Proofs.Connector
import BooleanSearch.Proofs.Node.Descent
import BooleanSearch.Proofs.Token.Replaced
import BooleanSearch.Proofs.Query.Enclosures
import BooleanSearch.Proofs.Node.Parsable
import BooleanSearch.Proofs.Query.Parse
import BooleanSearch.Proofs.Rule.Runs
import BooleanSearch.Proofs.Json.Literal
import BooleanSearch.Proofs.Json.Escape
import BooleanSearch.Proofs.Json.Word
import BooleanSearch.Proofs.Json.Source
import BooleanSearch.Proofs.Json.Reading
import BooleanSearch.Proofs.Settings
import BooleanSearch.Proofs.Node.Descent
import BooleanSearch.Proofs.Node.Cursor
