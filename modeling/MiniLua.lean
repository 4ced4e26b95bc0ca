import MiniLua.Report
import MiniLua.Text.Lower
import MiniLua.Binary64.Written
import MiniLua.Scan.Scanner
import MiniLua.Compile.Generate
import MiniLua.Listing
import MiniLua.Machine.Step
import MiniLua.Wire.Chunk
import MiniLua.Manifest
import MiniLua.Source
import MiniLua.Editor.Interleaving
import MiniLua.Main
import MiniLua.Proofs.Evaluation
import MiniLua.Proofs.Compile.Generation
import MiniLua.Proofs.Machine.Execution
import MiniLua.Proofs.Machine.Locals
import MiniLua.Proofs.Compile.Simulation
import MiniLua.Proofs.Compile.Expressions
import MiniLua.Proofs.Machine.Natives
import MiniLua.Proofs.Compile.Statements
import MiniLua.Proofs.Tree.Parsing
import MiniLua.Proofs.Compile.Programs
import MiniLua.Proofs.Compile.Safety
import MiniLua.Proofs.Table.Dictionary
import MiniLua.Proofs.Table.Buckets
import MiniLua.Proofs.Table.Dense
import MiniLua.Proofs.Table.Refinement
import MiniLua.Proofs.Grammar
import MiniLua.Proofs.Grammar.Soundness
import MiniLua.Proofs.Grammar.Completeness
import MiniLua.Proofs.Compile.Acceptance
import MiniLua.Proofs.Table.Invariant
import MiniLua.Proofs.Text.Utf8
import MiniLua.Proofs.Cbor.Reading
import MiniLua.Proofs.Cbor.Limits
import MiniLua.Proofs.Wire.Records
import MiniLua.Proofs.Wire.RoundTrip
import MiniLua.Proofs.Wire.Normal
import MiniLua.Proofs.Scan.Extent
import MiniLua.Proofs.Tree.Extent
import MiniLua.Proofs.Compile.Extent
import MiniLua.Proofs.Wire.Programs
import MiniLua.Proofs.Scan.Brackets
import MiniLua.Proofs.Scan.Layout
import MiniLua.Proofs.Scan.Lookahead
import MiniLua.Proofs.Scan.Positions
import MiniLua.Proofs.Scan.Respacing
import MiniLua.Proofs.Compile.Unplaced
import MiniLua.Proofs.Compile.Layout
import MiniLua.Proofs.Editor.Documents
import MiniLua.Proofs.Editor.Serialization
import MiniLua.Proofs.Editor.Footprint
import MiniLua.Proofs.Editor.Stopping
import MiniLua.Proofs.Machine.Atomicity
import MiniLua.Proofs.Compile.Constructors
import MiniLua.Proofs.Tree.Mentions
import MiniLua.Proofs.Compile.Names
import MiniLua.Proofs.Editor.Globals
import MiniLua.Proofs.Scan.Sequence
import MiniLua.Proofs.Compile.Visits
import MiniLua.Proofs.Editor.Definitions
import MiniLua.Proofs.Text.Lines
import MiniLua.Proofs.Scan.Words
import MiniLua.Proofs.Editor.Occurrences
import MiniLua.Proofs.Editor.Diagnostics
import MiniLua.Proofs.Scan.Heads
import MiniLua.Proofs.Scan.LongStrings
import MiniLua.Proofs.Text.Decimals
import MiniLua.Proofs.Scan.Spellings
import MiniLua.Proofs.Listing.Instructions
import MiniLua.Proofs.Scan.NumeralGrammar
import MiniLua.Proofs.Compile.Constants
import MiniLua.Proofs.Manifest
import MiniLua.Proofs.Compile.Gatherings
import MiniLua.Proofs.Compile.Sites
import MiniLua.Proofs.Compile.Temporaries
import MiniLua.Proofs.Text.Printed
import MiniLua.Proofs.Listing.Lines
