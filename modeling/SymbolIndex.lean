import SymbolIndex.Entry.Canonical
import SymbolIndex.FileTree
import SymbolIndex.Main
import SymbolIndex.Proofs.Trie.Search
import SymbolIndex.Proofs.Database.Reachable
import SymbolIndex.Proofs.Database.Search
import SymbolIndex.Proofs.Database.Insertion
import SymbolIndex.Proofs.Database.Growth
import SymbolIndex.Proofs.Database.Order
import SymbolIndex.Proofs.Database.Merging
import SymbolIndex.Proofs.Database.Stability
import SymbolIndex.Proofs.Lexer.Steps
import SymbolIndex.Proofs.Lexer.Quotes
import SymbolIndex.Proofs.Lexer.Alike
import SymbolIndex.Proofs.Lexer.Shifting
import SymbolIndex.Proofs.Lexer.Lines
import SymbolIndex.Proofs.Lexer.Regions
import SymbolIndex.Proofs.Lexer.Layout
import SymbolIndex.Proofs.Lexer.Places
import SymbolIndex.Proofs.Lexer.Stops
import SymbolIndex.Proofs.Name.Spelling
import SymbolIndex.Proofs.Name.Quoting
import SymbolIndex.Proofs.Name.Roles
import SymbolIndex.Proofs.Document.Tokens
import SymbolIndex.Proofs.Document.Reader
import SymbolIndex.Proofs.Document.RoundTrip
import SymbolIndex.Proofs.Document.Agreement
import SymbolIndex.Proofs.Document.Shifting
import SymbolIndex.Proofs.Document.Ending
import SymbolIndex.Proofs.Document.Continuation
import SymbolIndex.Proofs.Document.Leaves
import SymbolIndex.Proofs.Document.Concatenation
import SymbolIndex.Proofs.Document.BlankLines
import SymbolIndex.Proofs.Document.LineEndings
import SymbolIndex.Proofs.Document.FirstLines
import SymbolIndex.Proofs.Entry.Description
import SymbolIndex.Proofs.Reference.Reading
import SymbolIndex.Proofs.Reference.Grammar
import SymbolIndex.Proofs.Reference.Layout
import SymbolIndex.Proofs.Reference.Naming
import SymbolIndex.Proofs.Reference.Printing
import SymbolIndex.Proofs.Reference.Described
import SymbolIndex.Proofs.Session.Run
import SymbolIndex.Proofs.Session.Candidates
import SymbolIndex.Proofs.Session.Resolution
import SymbolIndex.Proofs.Command.Resolving
import SymbolIndex.Proofs.Entry.DocumentationPath
import SymbolIndex.Proofs.Lexer.Calls
import SymbolIndex.Proofs.Document.Positions
import SymbolIndex.Proofs.Document.Progress
import SymbolIndex.Proofs.Document.LineForms
import SymbolIndex.Proofs.Document.LeafLines
import SymbolIndex.Proofs.Document.WellFormed
import SymbolIndex.Proofs.Document.Grouping
import SymbolIndex.Proofs.Name.Marks
import SymbolIndex.Proofs.Reference.Displayed
