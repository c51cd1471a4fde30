import TensorTyping.Main
import TensorTyping.Proofs.Engine.Attempts
import TensorTyping.Proofs.Engine.Confluence
import TensorTyping.Proofs.Expr.Literals
import TensorTyping.Proofs.Inference.Consistency
import TensorTyping.Proofs.Inference.Extension
import TensorTyping.Proofs.Inference.Failure
import TensorTyping.Proofs.Inference.Naming
import TensorTyping.Proofs.Inference.Notices
import TensorTyping.Proofs.Inference.Order
import TensorTyping.Proofs.Inference.Promises
import TensorTyping.Proofs.Inference.Rigidity
import TensorTyping.Proofs.Inference.Subjects
import TensorTyping.Proofs.Inference.Typability
import TensorTyping.Proofs.Module.Tags
import TensorTyping.Proofs.Relation.FieldOrder
import TensorTyping.Proofs.Shape.Valuations
import TensorTyping.Proofs.Store.Composition
import TensorTyping.Proofs.Store.Compression
import TensorTyping.Proofs.Ty.Agreement
import TensorTyping.Proofs.Unify.Repetition
import TensorTyping.Proofs.Unify.Symmetry
import TensorTyping.Proofs.Unify.Worklist
