import Avro.Main
import Avro.Proofs.Reading
import Avro.Proofs.Session
import Avro.Proofs.Registration
import Avro.Proofs.Walk
import Avro.Proofs.References
import Avro.Proofs.Rules
import Avro.Proofs.Conformance
import Avro.Proofs.Names
import Avro.Proofs.RoundTrip
import Avro.Proofs.Defaults
import Avro.Proofs.Requests
import Avro.Proofs.Built
import Avro.Proofs.Termination
import Avro.Proofs.Grammar
import Avro.Proofs.Location
import Avro.Proofs.Recognition
import Avro.Proofs.Acceptance
import Avro.Proofs.Growth
import Avro.Proofs.Likeness
import Avro.Proofs.Stability
import Avro.Proofs.Transfer
import Avro.Proofs.Scoping
import Avro.Proofs.Writing
import Avro.Proofs.Unfolding
import Avro.Proofs.Records
import Avro.Proofs.Nesting
import Avro.Proofs.Spelling
import Avro.Proofs.Branches
import Avro.Proofs.Isolation
import Avro.Proofs.Faults
import Avro.Proofs.Blame
import Avro.Proofs.Parameters
import Avro.Proofs.Resolution
import Avro.Proofs.Construction
import Avro.Proofs.Silence
import Avro.Proofs.Excerpts
import Avro.Proofs.Stacks
import Avro.Proofs.Drafts
