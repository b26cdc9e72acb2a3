import HeaderWork.Bytes.Run
import HeaderWork.Pool
import HeaderWork.Proofs.Absorption
import HeaderWork.Proofs.Accesses
import HeaderWork.Proofs.AllOrNothing
import HeaderWork.Proofs.Assembly
import HeaderWork.Proofs.Binding
import HeaderWork.Proofs.Calls
import HeaderWork.Proofs.Canonical
import HeaderWork.Proofs.ClosedForm
import HeaderWork.Proofs.Decision
import HeaderWork.Proofs.Digits
import HeaderWork.Proofs.Embedding
import HeaderWork.Proofs.Intake
import HeaderWork.Proofs.Locality
import HeaderWork.Proofs.Log
import HeaderWork.Proofs.Lossless
import HeaderWork.Proofs.Padding
import HeaderWork.Proofs.Rescoring
import HeaderWork.Proofs.Restoring
import HeaderWork.Proofs.Score
import HeaderWork.Proofs.Spelling
import HeaderWork.Proofs.Streaming
import HeaderWork.Proofs.Tampering
import HeaderWork.Proofs.TextInput
import HeaderWork.Proofs.Truncation
import HeaderWork.Scheme.Transparent
import HeaderWork.Session
