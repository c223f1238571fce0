import LibEmsha.Library.Traced
import LibEmsha.Library.Machine
import LibEmsha.Library.Blocks
import LibEmsha.Library.MerkleDamgard
import LibEmsha.Library.BigEndian
import LibEmsha.Library.Hex
import LibEmsha.Library.Relational
import LibEmsha.Model.Interface
import LibEmsha.Model.SHA256
import LibEmsha.Model.HMAC
import LibEmsha.Specification.Standards
import LibEmsha.Specification.Machines
import LibEmsha.HashEqual
import LibEmsha.HexString
import LibEmsha.SHA256.Constants
import LibEmsha.SHA256.Compression
import LibEmsha.SHA256.Buffer
import LibEmsha.SHA256.Absorb
import LibEmsha.SHA256.Padding
import LibEmsha.SHA256.Digest
import LibEmsha.SHA256.Conformance
import LibEmsha.SHA256.Collision
import LibEmsha.SHA256.Refinement
import LibEmsha.SHA256.Invariant
import LibEmsha.SHA256.StaleBytes
import LibEmsha.SHA256.Limit
import LibEmsha.SHA256.Builds
import LibEmsha.SHA256.DataIndependence
import LibEmsha.SHA256.Faults
import LibEmsha.SHA256.Extension
import LibEmsha.SHA256.Finished
import LibEmsha.SelfTest
import LibEmsha.SHA256.Codes
import LibEmsha.SHA256.Chunks
import LibEmsha.HMAC.Refinement
import LibEmsha.HMAC.KeySetup
import LibEmsha.HMAC.Codes
import LibEmsha.HMAC.Destruction
import LibEmsha.HMAC.SinglePass
import LibEmsha.HMAC.Reset
import LibEmsha.HMAC.Chunks
import LibEmsha.HMAC.Collision
import LibEmsha.HMAC.Conformance
import LibEmsha.HMAC.KeyFault
import LibEmsha.HMAC.DataIndependence
import LibEmsha.HMAC.Faults
import LibEmsha.HMAC.Keys
import LibEmsha.HMAC.Invariant
import LibEmsha.HMAC.Finished
