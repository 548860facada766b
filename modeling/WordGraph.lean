import WordGraph.EdgeTable.Ends
import WordGraph.Lexicon.Cursor
import WordGraph.Lexicon.History
import WordGraph.Main
import WordGraph.Proofs.Lexicon.Alike
import WordGraph.Proofs.Lexicon.Building
import WordGraph.Proofs.Lexicon.Resume
import WordGraph.Proofs.Lexicon.Shape
import WordGraph.Proofs.Numbering.Rank
import WordGraph.Proofs.Traversal.Words
import WordGraph.Proofs.Dump.Canonical
import WordGraph.Proofs.Lexicon.Grown
import WordGraph.Proofs.Dump.Language
import WordGraph.Proofs.Numbering.PerfectHash
import WordGraph.Proofs.Lexicon.Keeping
import WordGraph.Proofs.Lexicon.OutOfOrder
import WordGraph.Proofs.Lexicon.Measure
import WordGraph.Lexicon.Session
import WordGraph.Automaton.Builder
import WordGraph.Proofs.Automaton.Builder
import WordGraph.Proofs.Dump.Refusal
import WordGraph.Proofs.Lexicon.Session
import WordGraph.Proofs.Lexicon.Batch
import WordGraph.Proofs.Lexicon.Safe
import WordGraph.Proofs.Lexicon.Slots
import WordGraph.Proofs.Dump.Header
import WordGraph.Pattern.Mask
import WordGraph.Traversal.Search
import WordGraph.Proofs.Traversal.Search
import WordGraph.Lexicon.InPlace
import WordGraph.Proofs.Lexicon.Prefix
import WordGraph.Proofs.Lexicon.InPlace
import WordGraph.Proofs.Arena.Orders
import WordGraph.Proofs.Numbering.Exact
import WordGraph.Proofs.Dump.Diagnosis
import WordGraph.Proofs.EdgeTable.Compact
import WordGraph.Proofs.Lexicon.Comparison
import WordGraph.Proofs.Lexicon.Snapshot
import WordGraph.Proofs.WordList.Reading
import WordGraph.EdgeTable.BothEnds
import WordGraph.Arena.Edit
import WordGraph.Proofs.EdgeTable.BothEnds
import WordGraph.Proofs.Arena.Edit
import WordGraph.Proofs.Automaton.Suffix
