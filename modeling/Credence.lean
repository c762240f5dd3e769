import Credence.Text.Base64
import Credence.Text.Blank
import Credence.Text.Case
import Credence.Text.Digest
import Credence.Text.Escape
import Credence.Decimal.Binary
import Credence.Decimal.Layout
import Credence.Decimal.Read
import Credence.Decimal.Whole
import Credence.Calendar
import Credence.Constant
import Credence.Weight
import Credence.Clause
import Credence.Primitive.Builtin
import Credence.Primitive.Registry
import Credence.Body.Flow
import Credence.Body.Order
import Credence.Grammar.Lexeme
import Credence.Grammar.Reader
import Credence.Program
import Credence.Json.Reader
import Credence.Settings
import Credence.Diagram.Basic
import Credence.Diagram.Collect
import Credence.Diagram.Graph
import Credence.Diagram.Reorder
import Credence.Diagram.Sift
import Credence.Bloom
import Credence.KnowledgeBase.Basic
import Credence.KnowledgeBase.Compact
import Credence.Store
import Credence.Trie
import Credence.Estimate
import Credence.Hashing
import Credence.Solver.Basic
import Credence.Command
import Credence.Main
import Credence.Proofs.Unification
import Credence.Proofs.Instance
import Credence.Proofs.Text
import Credence.Proofs.Weight
import Credence.Proofs.Keys
import Credence.Proofs.Variant
import Credence.Proofs.Renaming
import Credence.Proofs.Trie
import Credence.Proofs.Model
import Credence.Proofs.Vocabulary
import Credence.Proofs.Derivation
import Credence.Proofs.Table
import Credence.Proofs.Duty
import Credence.Proofs.Searching
import Credence.Proofs.Resolving
import Credence.Proofs.Deciding
import Credence.Proofs.Progress
import Credence.Proofs.Saturation
import Credence.Proofs.Ordering
import Credence.Proofs.Standing
import Credence.Proofs.Scheduling
import Credence.Proofs.Reading
import Credence.Proofs.Keeping
import Credence.Proofs.Loading
import Credence.Proofs.Solving
import Credence.Proofs.Answers
import Credence.Proofs.Chance
import Credence.Proofs.Connectives
import Credence.Proofs.Counting
import Credence.Proofs.Expansion
import Credence.Proofs.Snapshot
import Credence.Proofs.Building
import Credence.Proofs.Canonicity
import Credence.Proofs.Compiling
import Credence.Proofs.Denial
import Credence.Proofs.Estimation
import Credence.Proofs.Probability
import Credence.Proofs.Proving
import Credence.Proofs.Moves
import Credence.Proofs.Lockstep
import Credence.Proofs.Closing
import Credence.Proofs.Pruning
import Credence.Proofs.Confinement
import Credence.Proofs.Recursion
import Credence.Proofs.Termination
import Credence.Proofs.Draws
import Credence.Proofs.Growth
import Credence.Proofs.Binding
import Credence.Proofs.Backing
import Credence.Proofs.Upholding
import Credence.Proofs.Tracing
import Credence.Proofs.Refusal
import Credence.Proofs.Sampling
import Credence.Proofs.Outputs
import Credence.Proofs.Making
import Credence.Proofs.Legible
import Credence.Proofs.Explaining
import Credence.Proofs.Shifting
import Credence.Proofs.Mirroring
import Credence.Proofs.Wildcards
import Credence.Proofs.Following
import Credence.Proofs.Independence
import Credence.Proofs.Operations
import Credence.Proofs.Transparency
import Credence.Proofs.Protection
import Credence.Proofs.Inlining
import Credence.Proofs.Compaction
import Credence.Proofs.Requests
import Credence.Proofs.Wording
import Credence.Proofs.Rounding
import Credence.Proofs.Printing
import Credence.Proofs.Doubles
import Credence.Proofs.Rereading
import Credence.Proofs.Rewording
import Credence.Proofs.Invariance
import Credence.Proofs.Stability
import Credence.Proofs.Stopping
import Credence.Proofs.Reduction
import Credence.Proofs.Sifting
import Credence.Proofs.Enumeration
import Credence.Proofs.Generality
import Credence.Proofs.Numbering
import Credence.Proofs.Sameness
import Credence.Proofs.Membership
import Credence.Proofs.Likeness
import Credence.Proofs.Wrapping
import Credence.Proofs.Escaping
import Credence.Proofs.Meaning
import Credence.Proofs.Flattening
import Credence.Proofs.Desugaring
import Credence.Proofs.Producing
import Credence.Proofs.Handles
import Credence.Proofs.Sharing
import Credence.Proofs.Spelling
import Credence.Proofs.Filtering
import Credence.Proofs.Retention
import Credence.Proofs.Strata
import Credence.Proofs.Perfection
import Credence.Proofs.Odds
import Credence.Proofs.Coins
import Credence.Proofs.Entries
import Credence.Proofs.Steadiness
import Credence.Proofs.Exactness
