import PathGlob.GlobSet
import PathGlob.GlobSet.Call
import PathGlob.Pattern.Context
import PathGlob.Pattern.Count
import PathGlob.Pattern.Escape
import PathGlob.Pattern.Everywhere
import PathGlob.Pattern.Exact
import PathGlob.Pattern.Expansion
import PathGlob.Proofs.Escape
import PathGlob.Proofs.GlobSet
import PathGlob.Proofs.Search.Beginnings
import PathGlob.Proofs.Search.Bounds
import PathGlob.Proofs.Search.Classes
import PathGlob.Proofs.Search.Commitment
import PathGlob.Proofs.Search.Cuts
import PathGlob.Proofs.Search.Decision
import PathGlob.Proofs.Search.Ends
import PathGlob.Proofs.Search.Exchange
import PathGlob.Proofs.Search.Expansion
import PathGlob.Proofs.Search.Flags
import PathGlob.Proofs.Search.Globstar
import PathGlob.Proofs.Search.Halting
import PathGlob.Proofs.Search.History
import PathGlob.Proofs.Search.Negation
import PathGlob.Proofs.Search.Nodes
import PathGlob.Proofs.Search.Places
import PathGlob.Proofs.Search.Positions
import PathGlob.Proofs.Search.Questions
import PathGlob.Proofs.Search.Reach
import PathGlob.Proofs.Search.Segments
import PathGlob.Proofs.Search.Trailing
import PathGlob.Proofs.Search.Verdict
import PathGlob.Proofs.Search.Wildcards
import PathGlob.Proofs.Syntax.Complete
import PathGlob.Proofs.Syntax.Completion
import PathGlob.Proofs.Syntax.Concatenation
import PathGlob.Proofs.Syntax.Heads
import PathGlob.Proofs.Syntax.Offsets
import PathGlob.Proofs.Syntax.Outcome
import PathGlob.Proofs.Syntax.Progress
import PathGlob.Proofs.Syntax.Reader
import PathGlob.Proofs.Syntax.Refusal
import PathGlob.Proofs.Syntax.RefusalReading
import PathGlob.Proofs.Syntax.RoundTrip
import PathGlob.Proofs.Syntax.Shape
import PathGlob.Proofs.Syntax.Sound
import PathGlob.Search.Ends
import PathGlob.Search.Machine
import PathGlob.Search.Move
import PathGlob.Syntax.Canonical
import PathGlob.Syntax.Concatenation
import PathGlob.Syntax.Grammar
import PathGlob.Syntax.Nesting
import PathGlob.Syntax.Reader
