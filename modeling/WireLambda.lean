import WireLambda.Json.Record
import WireLambda.Proofs.Metering
import WireLambda.Proofs.WireRoundTrip
import WireLambda.Proofs.Projection
import WireLambda.Proofs.PrefixCode
import WireLambda.Proofs.Scoping
import WireLambda.Proofs.Folding
import WireLambda.Proofs.Alphabet
import WireLambda.Proofs.Stages
import WireLambda.Proofs.Spacing
import WireLambda.Proofs.Messages
import WireLambda.Proofs.Renaming
import WireLambda.Proofs.Canonical
import WireLambda.Proofs.Recovery
import WireLambda.Proofs.Noninterference
import WireLambda.Proofs.JsonText
import WireLambda.Proofs.Consistency
import WireLambda.Proofs.Bodies
import WireLambda.Proofs.Cutting
import WireLambda.Proofs.ApplyFree
import WireLambda.Proofs.Counter
import WireLambda.Proofs.MaximalRuns
