import Toolchain.Editor.Server
import Toolchain.Main
import Toolchain.Proofs.Bytecode.Image
import Toolchain.Proofs.Bytecode.Scanning
import Toolchain.Proofs.Compiler.FinalPart
import Toolchain.Proofs.Compiler.HandlerCount
import Toolchain.Proofs.Compiler.Entrance
import Toolchain.Proofs.Compiler.Constants
import Toolchain.Proofs.Compiler.Registration
import Toolchain.Proofs.Compiler.Reports
import Toolchain.Proofs.Disk.Place
import Toolchain.Proofs.Editor.Publication
import Toolchain.Proofs.Text.Source
import Toolchain.Proofs.Text.Utf8
import Toolchain.Proofs.Json.RoundTrip
import Toolchain.Proofs.Project.Cache
import Toolchain.Proofs.Project.Output
import Toolchain.Proofs.Project.Freshness
import Toolchain.Proofs.Project.Reuse
import Toolchain.Proofs.Format.Meaning
import Toolchain.Proofs.Compiler.Evaluation
import Toolchain.Proofs.Compiler.Readback
import Toolchain.Proofs.Token.Lines
import Toolchain.Proofs.Format.Faces
import Toolchain.Proofs.Project.Ledger
import Toolchain.Proofs.Parser.Ahead
import Toolchain.Proofs.Token.Order
import Toolchain.Proofs.Parser.Extent
import Toolchain.Proofs.Token.Newline
import Toolchain.Proofs.Parser.Lone
import Toolchain.Proofs.Compiler.Renaming
import Toolchain.Proofs.Compiler.Modes
import Toolchain.Proofs.Bytecode.Deepest
import Toolchain.Proofs.Tree.Fragment
import Toolchain.Proofs.Parser.Chain
import Toolchain.Proofs.Token.Calls
import Toolchain.Proofs.Token.Positions
import Toolchain.Proofs.Token.Layout
import Toolchain.Proofs.Token.Spaced
import Toolchain.Proofs.Editor.Edit
import Toolchain.Proofs.Editor.Formatting
import Toolchain.Proofs.Parser.Target
import Toolchain.Proofs.Diagnostic.Colours
import Toolchain.Proofs.Prompt.Conservation
import Toolchain.Proofs.Prompt.Completeness
import Toolchain.Proofs.Diagnostic.Caret
import Toolchain.Proofs.Parser.Indexing
import Toolchain.Proofs.Parser.InStep
import Toolchain.Proofs.Parser.Phrases
import Toolchain.Proofs.Format.ReadBack
import Toolchain.Proofs.Parser.Sentences
import Toolchain.Proofs.Parser.Suites
import Toolchain.Proofs.Format.Lines
import Toolchain.Proofs.Format.Heads
import Toolchain.Proofs.Format.RoundTrip
