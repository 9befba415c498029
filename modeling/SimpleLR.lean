import SimpleLR.IdSet
import SimpleLR.Text
import SimpleLR.Symbol
import SimpleLR.Digraph.Basic
import SimpleLR.Digraph.Components
import SimpleLR.Grammar.Basic
import SimpleLR.Grammar.Error
import SimpleLR.Grammar.Validation
import SimpleLR.Grammar.Text
import SimpleLR.Grammar.Dependency
import SimpleLR.Grammar.Derivation
import SimpleLR.Draft
import SimpleLR.Catalogue
import SimpleLR.Analysis.Iteration
import SimpleLR.Analysis.Property
import SimpleLR.Analysis.Inclusion
import SimpleLR.Analysis.Sets
import SimpleLR.Analysis
import SimpleLR.Item
import SimpleLR.Automaton.Closure
import SimpleLR.Automaton.Collection
import SimpleLR.Automaton.Lookahead
import SimpleLR.Automaton.Text
import SimpleLR.Automaton.Path
import SimpleLR.Table.Action
import SimpleLR.Table.Precedence
import SimpleLR.Table.Script
import SimpleLR.Table.Build
import SimpleLR.Table.Text
import SimpleLR.Table.Candidates
import SimpleLR.Config
import SimpleLR.Report
import SimpleLR.Parse.Table
import SimpleLR.Parse.Configuration
import SimpleLR.Parse.Run
import SimpleLR.Parse.Text
import SimpleLR.Proofs.Digraph.Components
import SimpleLR.Proofs.Digraph.Connectivity
import SimpleLR.Proofs.Analysis.Iteration
import SimpleLR.Proofs.Analysis.Inclusion
import SimpleLR.Proofs.Analysis.Property
import SimpleLR.Proofs.Grammar.Validation
import SimpleLR.Proofs.Grammar.Dependency
import SimpleLR.Proofs.Analysis.Sets
import SimpleLR.Proofs.Analysis.Follow
import SimpleLR.Proofs.Analysis.Exactness
import SimpleLR.Proofs.Analysis.Fixpoint
import SimpleLR.Proofs.Item
import SimpleLR.Proofs.Automaton.Closure
import SimpleLR.Proofs.Automaton.Collection
import SimpleLR.Proofs.Automaton.ViablePrefix
import SimpleLR.Proofs.Grammar.Derivation
import SimpleLR.Proofs.Analysis.Decisions
import SimpleLR.Proofs.Table.Candidates
import SimpleLR.Proofs.Table.Build
import SimpleLR.Proofs.Parse.Step
import SimpleLR.Proofs.Parse.Soundness
import SimpleLR.Proofs.Parse.Completeness
import SimpleLR.Proofs.Parse.Termination
import SimpleLR.Proofs.Parse.Invariant
import SimpleLR.Proofs.Parse.Unambiguity
import SimpleLR.Proofs.Parse.CorrectPrefix
import SimpleLR.Proofs.Table.Contests
import SimpleLR.Proofs.Parse.Modes
import SimpleLR.Proofs.Parse.Effect
import SimpleLR.Proofs.Parse.Stack
import SimpleLR.Proofs.Parse.Conservation
import SimpleLR.Proofs.Parse.Finality
import SimpleLR.Proofs.Table.Conflicts
import SimpleLR.Proofs.Table.Accept
import SimpleLR.Proofs.Table.Outcome
import SimpleLR.Proofs.Table.Displacement
import SimpleLR.Proofs.Automaton.Canonical
import SimpleLR.Proofs.Table.Slots
import SimpleLR.Proofs.Table.Usage
import SimpleLR.Proofs.Table.Reachability
import SimpleLR.Proofs.Draft.Refusal
import SimpleLR.Proofs.Draft.Assembly
import SimpleLR.Proofs.Draft.Numbering
