import StateMerging.SortedSet
import StateMerging.Arena
import StateMerging.Redirections
import StateMerging.Edge
import StateMerging.Node
import StateMerging.Text.Blank
import StateMerging.Text.Lines
import StateMerging.Text.Width.Classes
import StateMerging.Text.Width
import StateMerging.Text.Segment
import StateMerging.Text.Rendition
import StateMerging.Text.Style
import StateMerging.Text.Table
import StateMerging.Automaton.Basic
import StateMerging.Automaton.Ingest
import StateMerging.Automaton.Language
import StateMerging.Automaton.Violation
import StateMerging.Automaton.Contract
import StateMerging.Automaton.Merge
import StateMerging.Automaton.Step
import StateMerging.Automaton.Settle
import StateMerging.Automaton.Run
import StateMerging.Automaton.Heir
import StateMerging.Snapshot
import StateMerging.Snapshot.Display
import StateMerging.Command.Files
import StateMerging.Command.Options
import StateMerging.Command.Session
import StateMerging.Main
import StateMerging.Proofs.Chains
import StateMerging.Proofs.Incidence
import StateMerging.Proofs.Checker
import StateMerging.Proofs.Quotient
import StateMerging.Proofs.Fusion
import StateMerging.Proofs.Rewiring
import StateMerging.Proofs.Groups
import StateMerging.Proofs.Steps
import StateMerging.Proofs.Extension
import StateMerging.Proofs.Runs
import StateMerging.Proofs.Determinism
import StateMerging.Proofs.Closure
import StateMerging.Proofs.Reversible
import StateMerging.Proofs.Fixpoint
import StateMerging.Proofs.Convergence
import StateMerging.Proofs.Sentences
import StateMerging.Proofs.Changes
import StateMerging.Proofs.Lineage
import StateMerging.Proofs.Names
import StateMerging.Proofs.PrefixTree
import StateMerging.Proofs.SharedTargets
import StateMerging.Proofs.Trim
import StateMerging.Proofs.Reports
import StateMerging.Proofs.MinimalExtension
import StateMerging.Proofs.IngestionOrder
import StateMerging.Proofs.Faults
import StateMerging.Proofs.Rejection
import StateMerging.Proofs.Cascades
import StateMerging.Proofs.Compression
import StateMerging.Proofs.Branching
import StateMerging.Proofs.Presentation
import StateMerging.Proofs.Modes
import StateMerging.Proofs.Layout
import StateMerging.Proofs.Formatting
import StateMerging.Proofs.Lookups
import StateMerging.Proofs.Columns
import StateMerging.Proofs.Alignment
import StateMerging.Proofs.Resolving
import StateMerging.Proofs.CommandLine
