import PetriCheck.Bits
import PetriCheck.CommandLine
import PetriCheck.Condition.Automaton
import PetriCheck.Condition.Formula
import PetriCheck.Condition.Grammar
import PetriCheck.Condition.PropSet
import PetriCheck.Condition.Proposition
import PetriCheck.Condition.Stored
import PetriCheck.Data.Format
import PetriCheck.Data.Json.Lexical
import PetriCheck.Data.Json.Reader
import PetriCheck.Data.Json.Writer
import PetriCheck.Data.Ron.Lexical
import PetriCheck.Data.Ron.Reader
import PetriCheck.Data.Ron.Writer
import PetriCheck.Data.Scan
import PetriCheck.Data.Shape
import PetriCheck.Data.Toml.Reader
import PetriCheck.Data.Toml.Scalar
import PetriCheck.Data.Toml.Table
import PetriCheck.Decimal.Parse
import PetriCheck.Decimal.Shortest
import PetriCheck.Encoding
import PetriCheck.IdMap
import PetriCheck.Key
import PetriCheck.Main
import PetriCheck.Model
import PetriCheck.Net.Basic
import PetriCheck.Net.Firing
import PetriCheck.Net.Incidence
import PetriCheck.Net.Stored
import PetriCheck.Options.Basic
import PetriCheck.Options.Words
import PetriCheck.Product
import PetriCheck.Proofs.Bits
import PetriCheck.Proofs.Condition.Direct
import PetriCheck.Proofs.Decoding
import PetriCheck.Proofs.Encoding
import PetriCheck.Proofs.Key.Canonical
import PetriCheck.Proofs.Key.Framing
import PetriCheck.Proofs.Net.Access
import PetriCheck.Proofs.Net.FiringRule
import PetriCheck.Proofs.Net.Runs
import PetriCheck.Proofs.Product.Acceptance
import PetriCheck.Proofs.Product.Access
import PetriCheck.Proofs.Product.Automata
import PetriCheck.Proofs.Product.Finite
import PetriCheck.Proofs.Product.Shape
import PetriCheck.Proofs.Product.Steps
import PetriCheck.Proofs.Search.Abreast
import PetriCheck.Proofs.Search.Accounts
import PetriCheck.Proofs.Search.Bounds
import PetriCheck.Proofs.Search.Budgets
import PetriCheck.Proofs.Search.Causes
import PetriCheck.Proofs.Search.Confinement
import PetriCheck.Proofs.Search.Counts
import PetriCheck.Proofs.Search.Discovery
import PetriCheck.Proofs.Search.Effort
import PetriCheck.Proofs.Search.Faults
import PetriCheck.Proofs.Search.Frontier
import PetriCheck.Proofs.Search.Graph
import PetriCheck.Proofs.Search.Invariants
import PetriCheck.Proofs.Search.Layers
import PetriCheck.Proofs.Search.Limits
import PetriCheck.Proofs.Search.Lockstep
import PetriCheck.Proofs.Search.Moves
import PetriCheck.Proofs.Search.Nested.Effort
import PetriCheck.Proofs.Search.Nested.Invariant
import PetriCheck.Proofs.Search.Nested.Shadows
import PetriCheck.Proofs.Search.Nested.Steps
import PetriCheck.Proofs.Search.Offers
import PetriCheck.Proofs.Search.Parallel
import PetriCheck.Proofs.Search.Paths
import PetriCheck.Proofs.Search.Registry
import PetriCheck.Proofs.Search.Reports
import PetriCheck.Proofs.Search.Run
import PetriCheck.Proofs.Search.StateLimit
import PetriCheck.Proofs.Search.Steps
import PetriCheck.Proofs.Search.Tally
import PetriCheck.Proofs.Search.Tarjan.Descent
import PetriCheck.Proofs.Search.Tarjan.Effort
import PetriCheck.Proofs.Search.Tarjan.Invariant
import PetriCheck.Proofs.Search.Tarjan.Moves
import PetriCheck.Proofs.Search.Tarjan.Stack
import PetriCheck.Proofs.Search.Tarjan.Steps
import PetriCheck.Proofs.Search.Upkeep
import PetriCheck.Proofs.Search.Worklist
import PetriCheck.Proofs.StateIndex.Audit
import PetriCheck.Proofs.StateIndex.Filing
import PetriCheck.Proofs.StateIndex.Intact
import PetriCheck.Proofs.StateIndex.Layout
import PetriCheck.Proofs.StateIndex.Lookup
import PetriCheck.Proofs.StateIndex.Loops
import PetriCheck.Proofs.StateIndex.NodeLimit
import PetriCheck.Proofs.StateIndex.Numbers
import PetriCheck.Proofs.StateIndex.OrderedSet
import PetriCheck.Proofs.StateIndex.Represents
import PetriCheck.Proofs.StateIndex.Shape
import PetriCheck.Proofs.StateIndex.Sinking
import PetriCheck.Proofs.StateIndex.Soundness
import PetriCheck.Proofs.StateIndex.Splitting
import PetriCheck.Proofs.StateIndex.Trails
import PetriCheck.Proofs.Verdict.Capacity
import PetriCheck.Proofs.Verdict.CheckedNested
import PetriCheck.Proofs.Verdict.CheckedSearch
import PetriCheck.Proofs.Verdict.CycleSearches
import PetriCheck.Proofs.Verdict.Cycles
import PetriCheck.Proofs.Verdict.Endings
import PetriCheck.Proofs.Verdict.ExactLimit
import PetriCheck.Proofs.Verdict.Exploration
import PetriCheck.Proofs.Verdict.Faults
import PetriCheck.Proofs.Verdict.LimitedSearch
import PetriCheck.Proofs.Verdict.Nearest
import PetriCheck.Proofs.Verdict.NestedSearch
import PetriCheck.Proofs.Verdict.Runs
import PetriCheck.Proofs.Verdict.StateLimit
import PetriCheck.Proofs.Verdict.States
import PetriCheck.Proofs.Verdict.Statistics
import PetriCheck.Proofs.Verdict.Termination
import PetriCheck.Proofs.Verdict.WiderBound
import PetriCheck.Search.Budget
import PetriCheck.Search.Checker
import PetriCheck.Search.Frontier
import PetriCheck.Search.Mode
import PetriCheck.Search.Nested
import PetriCheck.Search.Outcome
import PetriCheck.Search.Resident
import PetriCheck.Search.Shuffle
import PetriCheck.Search.Statistics
import PetriCheck.Search.Stored
import PetriCheck.Search.Tarjan
import PetriCheck.Search.Task
import PetriCheck.Search.Worklist
import PetriCheck.Settings
import PetriCheck.StateIndex.Audit
import PetriCheck.StateIndex.Basic
import PetriCheck.StateIndex.Insert
import PetriCheck.StateIndex.Pool
import PetriCheck.StateIndex.Traverse
import PetriCheck.Text.Hidden
import PetriCheck.Text.Names
import PetriCheck.Text.Quoted
import PetriCheck.Proofs.Condition.Labels
import PetriCheck.Proofs.Condition.TokenSum
import PetriCheck.Proofs.Product.Successors
import PetriCheck.Proofs.Key.Order
import PetriCheck.Proofs.StateIndex.Enumeration
import PetriCheck.Proofs.Condition.Derivation
import PetriCheck.Proofs.Condition.Reading
import PetriCheck.Proofs.Condition.Naming
import PetriCheck.Proofs.Net.Building
import PetriCheck.Proofs.StateIndex.Matching
import PetriCheck.Proofs.Key.Code
import PetriCheck.Proofs.Product.Relevance
import PetriCheck.Proofs.Search.Tarjan.Cases
import PetriCheck.Proofs.Search.Tarjan.Links
import PetriCheck.Proofs.Verdict.CycleStack
