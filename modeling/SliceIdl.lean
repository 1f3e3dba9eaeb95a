import SliceIdl.Command.Run
import SliceIdl.Document.Json
import SliceIdl.Document.Parse
import SliceIdl.Json.Reader
import SliceIdl.Load.Closure
import SliceIdl.Main
import SliceIdl.Workspace.Bundled
import SliceIdl.Proofs.Load.Operations
import SliceIdl.Proofs.Load.Schedule
import SliceIdl.Proofs.Load.Watcher
import SliceIdl.Proofs.Load.Ledger
import SliceIdl.Proofs.Load.Reachability
import SliceIdl.Proofs.Load.Interleaving
import SliceIdl.Proofs.Load.BreadthFirst
import SliceIdl.Proofs.Path.Naming
import SliceIdl.Proofs.Compile.Planning
import SliceIdl.Proofs.Compile.Provenance
import SliceIdl.Proofs.Load.FirstFailure
import SliceIdl.Proofs.Compile.Emission
import SliceIdl.Proofs.Grammar.Exactness
import SliceIdl.Proofs.Document.RoundTrip
import SliceIdl.Proofs.Compile.Confinement
import SliceIdl.Proofs.Compile.Refusal
import SliceIdl.Proofs.Document.Rendering
import SliceIdl.Proofs.Compile.Crashes
import SliceIdl.Proofs.Load.Noninterference
import SliceIdl.Proofs.Load.Sources
import SliceIdl.Proofs.Compile.Frame
import SliceIdl.Proofs.Workspace.WellFormed
import SliceIdl.Proofs.Document.Layout
import SliceIdl.Proofs.Document.Concatenation
import SliceIdl.Proofs.Document.EarliestProblem
import SliceIdl.Proofs.Workspace.Rewriting
import SliceIdl.Proofs.Workspace.Expansion
import SliceIdl.Proofs.Workspace.Matches
import SliceIdl.Proofs.Compile.Again
import SliceIdl.Proofs.Load.Answers
import SliceIdl.Proofs.Source.Positions
import SliceIdl.Proofs.Source.TokenTexts
import SliceIdl.Proofs.Document.Locations
import SliceIdl.Proofs.Document.Determinacy
import SliceIdl.Proofs.Load.FallbackRoots
import SliceIdl.Proofs.Load.Termination
import SliceIdl.Proofs.Load.WindingUp
import SliceIdl.Proofs.Document.LineEndings
import SliceIdl.Proofs.Document.Includes
import SliceIdl.Proofs.Document.Lawful
import SliceIdl.Proofs.Document.Flaws
import SliceIdl.Proofs.Document.Rejection
import SliceIdl.Proofs.Document.Strings
import SliceIdl.Proofs.Path.Resolution
import SliceIdl.Proofs.Json.Reading
import SliceIdl.Proofs.Json.RoundTrip
import SliceIdl.Proofs.Load.Requests
import SliceIdl.Proofs.Load.Distances
import SliceIdl.Proofs.Load.Lookup
import SliceIdl.Proofs.Compile.Occurrences
import SliceIdl.Proofs.Compile.Obstruction
import SliceIdl.Proofs.Report.Logging
import SliceIdl.Proofs.Source.Partition
import SliceIdl.Proofs.Load.Anchoring
import SliceIdl.Proofs.Load.Files
import SliceIdl.Proofs.Compile.Trials
