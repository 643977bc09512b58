import BoardObjects.ErrorCode
import BoardObjects.Words.Program
import BoardObjects.Words.Bits
import BoardObjects.Mask.Program
import BoardObjects.Group.Program
import BoardObjects.Clock.Program
import BoardObjects.Clock.Clients
import BoardObjects.Proofs.Conformance
import BoardObjects.Proofs.ErrorNumbers
import BoardObjects.Proofs.Words.Search
import BoardObjects.Proofs.Words.Count
import BoardObjects.Proofs.Words.Visit
import BoardObjects.Proofs.Words.Geometry
import BoardObjects.Proofs.Words.Access
import BoardObjects.Proofs.Words.Complement
import BoardObjects.Proofs.Words.Combination
import BoardObjects.Proofs.Wire.Bytes
import BoardObjects.Proofs.Wire.Layout
import BoardObjects.Proofs.Mask.Bits
import BoardObjects.Proofs.Mask.Runs
import BoardObjects.Proofs.Mask.IndexSet
import BoardObjects.Proofs.Mask.Enumeration
import BoardObjects.Proofs.Mask.Refinement
import BoardObjects.Proofs.Mask.Counting
import BoardObjects.Proofs.Mask.Queries
import BoardObjects.Proofs.Mask.Iteration
import BoardObjects.Proofs.Mask.Toggling
import BoardObjects.Proofs.Mask.Transfer
import BoardObjects.Proofs.Mask.Erasure
import BoardObjects.Proofs.Mask.Equality
import BoardObjects.Proofs.Mask.Algebra
import BoardObjects.Proofs.Group.Coupling
import BoardObjects.Proofs.Group.Payload
import BoardObjects.Proofs.Group.ObjectMap
import BoardObjects.Proofs.Group.Decoding
import BoardObjects.Proofs.Group.Filtering
import BoardObjects.Proofs.Group.Membership
import BoardObjects.Proofs.Group.Sending
import BoardObjects.Proofs.Group.History
import BoardObjects.Proofs.Clock.Domains
import BoardObjects.Proofs.Clock.Refinement
import BoardObjects.Proofs.Clock.Epochs
import BoardObjects.Proofs.Clock.Delivery
