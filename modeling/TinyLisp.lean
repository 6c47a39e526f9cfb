import TinyLisp.Main
import TinyLisp.Proofs.Environments.Callers
import TinyLisp.Proofs.Environments.Capture
import TinyLisp.Proofs.Environments.Definitions
import TinyLisp.Proofs.Environments.Frame
import TinyLisp.Proofs.Environments.LocalDefinitions
import TinyLisp.Proofs.Environments.Sharing
import TinyLisp.Proofs.Environments.Visible
import TinyLisp.Proofs.Environments.Vocabulary
import TinyLisp.Proofs.Evaluation.ArgumentLists
import TinyLisp.Proofs.Evaluation.Dispatch
import TinyLisp.Proofs.Evaluation.ExplicitEval
import TinyLisp.Proofs.Evaluation.Factorial
import TinyLisp.Proofs.Evaluation.TailCalls
import TinyLisp.Proofs.Evaluation.Tracing
import TinyLisp.Proofs.Interpreter.CommandLine
import TinyLisp.Proofs.Interpreter.Drivers
import TinyLisp.Proofs.Objects.Equality
import TinyLisp.Proofs.Objects.Sameness
import TinyLisp.Proofs.Ports.LifeCycle
import TinyLisp.Proofs.Ports.ReadBack
import TinyLisp.Proofs.Procedures.Arithmetic
import TinyLisp.Proofs.Procedures.Attribution
import TinyLisp.Proofs.Procedures.Lists
import TinyLisp.Proofs.Text.Entries
