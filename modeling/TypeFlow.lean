import TypeFlow.Analysis
import TypeFlow.Graph.Bisimilar
import TypeFlow.PlainSet.Subset
import TypeFlow.Program
import TypeFlow.Proofs.Graph.Mutation
import TypeFlow.Proofs.Inference.Bindings
import TypeFlow.Proofs.Inference.DeclaredTypes
import TypeFlow.Proofs.Inference.StatementOrder
import TypeFlow.Settings.Reader
import TypeFlow.Proofs.Bounds.Order
import TypeFlow.Proofs.Coloring.Verdict
import TypeFlow.Proofs.Flow.Answers
import TypeFlow.Proofs.Flow.Coverage
import TypeFlow.Proofs.Flow.Seeds
import TypeFlow.Proofs.Rule.Course
import TypeFlow.Proofs.Reference.Resolution
import TypeFlow.Proofs.TypeSet.Meaning
import TypeFlow.Proofs.Graph.Drafting
import TypeFlow.Proofs.Graph.Limbs
import TypeFlow.Proofs.Lowering.Firing
import TypeFlow.Proofs.Lowering.Operators
import TypeFlow.Proofs.Lowering.Chains
import TypeFlow.Proofs.Lowering.Keywords
import TypeFlow.Proofs.Lowering.Completeness
import TypeFlow.Proofs.Inference.Ceiling
import TypeFlow.Proofs.Inference.FieldWrites
import TypeFlow.Proofs.Graph.Hang
import TypeFlow.Proofs.Program.Outline
import TypeFlow.Proofs.Reference.Scoping
import TypeFlow.Proofs.Inference.SharedTypes
import TypeFlow.Proofs.Inference.Canonical
import TypeFlow.Proofs.Inference.Uncalled
import TypeFlow.Proofs.Inference.Again
import TypeFlow.Proofs.Analysis
import TypeFlow.Proofs.Rule.Endings
import TypeFlow.Proofs.Flow.Prefilter
import TypeFlow.Proofs.Bounds.History
import TypeFlow.Proofs.Lowering.Folding
import TypeFlow.Proofs.TypeSet.Change
import TypeFlow.Proofs.TypeSet.Stem
import TypeFlow.Proofs.PlainSet.Inclusion
import TypeFlow.Proofs.TypeSet.OfPlain
import TypeFlow.Proofs.Graph.Redirect
import TypeFlow.Proofs.Graph.Append
import TypeFlow.Proofs.Graph.Bisimilarity
import TypeFlow.Proofs.Graph.Preorder
import TypeFlow.Proofs.Graph.Nearest
import TypeFlow.Proofs.Inference.Justified
import TypeFlow.Proofs.Coloring.Interned
import TypeFlow.Proofs.Coloring.ReadBack
import TypeFlow.Proofs.Inference.TypeNodes
import TypeFlow.Proofs.Reference.Recollected
import TypeFlow.Proofs.Reference.Repeated
import TypeFlow.Proofs.Lowering.Nested
import TypeFlow.Proofs.Lowering.Collected
import TypeFlow.Proofs.Reference.Hygiene
