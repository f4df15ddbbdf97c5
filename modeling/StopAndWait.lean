import StopAndWait.Engine.Calls
import StopAndWait.Link.Memory
import StopAndWait.Link.Responder
import StopAndWait.Link.Scripted
import StopAndWait.Proofs.Completion
import StopAndWait.Proofs.Delivery
import StopAndWait.Proofs.Attempts
import StopAndWait.Proofs.Assembly
import StopAndWait.Proofs.Custody
import StopAndWait.Proofs.Stream
import StopAndWait.Proofs.Renewal
import StopAndWait.Proofs.Roles
import StopAndWait.Proofs.Agreement
import StopAndWait.Proofs.Conversation
import StopAndWait.Proofs.Codec
import StopAndWait.Proofs.Detection
import StopAndWait.Proofs.Handover
import StopAndWait.Proofs.Period
import StopAndWait.Proofs.Persistence
import StopAndWait.Proofs.Noise
import StopAndWait.Proofs.Segments
import StopAndWait.Proofs.Limits
import StopAndWait.Proofs.Exhaustion
import StopAndWait.Proofs.Failures
import StopAndWait.Proofs.Pacing
import StopAndWait.Proofs.Loss
import StopAndWait.Proofs.Queues
import StopAndWait.Proofs.Remainder
import StopAndWait.Proofs.Budget
import StopAndWait.Proofs.Truncation
