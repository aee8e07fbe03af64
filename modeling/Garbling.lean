import Garbling.Block
import Garbling.Cipher.Aes
import Garbling.Cipher.Blake3
import Garbling.Cipher.ChaCha
import Garbling.CounterStream
import Garbling.Generator
import Garbling.LabelHash
import Garbling.MultiKey.BlockScheme
import Garbling.MultiKey.FeistelScheme
import Garbling.Circuit
import Garbling.Digest
import Garbling.Error
import Garbling.Tables
import Garbling.FreeXor.Audit
import Garbling.FreeXor.Evaluation
import Garbling.IdentityGate
import Garbling.Layered.Audit
import Garbling.Layered.Commitment
import Garbling.Layered.Evaluation
import Garbling.Session
import Garbling.Layered.Session
import Garbling.Binary.Documents
import Garbling.Json.Documents
import Garbling.Proofs.Outcomes
import Garbling.Proofs.Circuit.Valuation
import Garbling.Proofs.KeyArray.Choice
import Garbling.Proofs.Parties
import Garbling.Proofs.FreeXor.Encoding
import Garbling.Proofs.FreeXor.Correctness
import Garbling.Proofs.FreeXor.Soundness
import Garbling.Proofs.FreeXor.Translation
import Garbling.Proofs.IdentityRows
import Garbling.Proofs.Layered.Bridge
import Garbling.Proofs.Layered.Evaluation
import Garbling.Proofs.Layered.Operations
import Garbling.Proofs.Layered.Soundness
import Garbling.Proofs.MultiKey.Laws
import Garbling.Proofs.MultiKey.Permutation
import Garbling.Proofs.IdentityTables
import Garbling.Proofs.IdentityAcceptance
import Garbling.Proofs.Layered.HonestLayer
import Garbling.Proofs.Binary.Lossless
import Garbling.Proofs.Binary.Transport
import Garbling.Proofs.Layered.HonestGarbling
import Garbling.Proofs.Layered.Preparation
import Garbling.Proofs.Layered.Received
import Garbling.Proofs.Layered.OverTheWire
import Garbling.Proofs.FreeXor.Completeness
import Garbling.Proofs.FreeXor.Acceptance
import Garbling.Proofs.Layered.Completeness
import Garbling.Proofs.Layered.Binding
import Garbling.Proofs.Layered.DeferredAudit
import Garbling.Proofs.EvaluationErrors
import Garbling.Proofs.Layered.MissingTables
import Garbling.Proofs.Layered.Consistency
import Garbling.Proofs.Damage
import Garbling.Proofs.FreeXor.Tampering
import Garbling.Proofs.IdentityTampering
import Garbling.Proofs.Layered.Tampering
import Garbling.Proofs.Restarting
import Garbling.Proofs.Layered.Seeding
import Garbling.Proofs.Layered.SeedCheck
import Garbling.Proofs.Layered.EqualKeys
import Garbling.Proofs.FreeXor.Commitment
import Garbling.Proofs.Layered.Commitment
import Garbling.Proofs.Sessions
import Garbling.Proofs.Keystreams
import Garbling.Proofs.Layered.StreamSeeds
import Garbling.Proofs.Layered.Transparency
import Garbling.Proofs.Layered.GarblingSucceeds
import Garbling.Proofs.Layered.Sessions
import Garbling.Proofs.Layered.FailedChanges
import Garbling.Proofs.Bounds
import Garbling.Proofs.Layered.Bounds
import Garbling.Proofs.Circuit.Validation
import Garbling.Proofs.FreeXor.HonestAudit
import Garbling.Proofs.FreeXor.Ungarbled
import Garbling.Proofs.Layered.Ungarbled
import Garbling.Proofs.CounterStream
import Garbling.Proofs.MultiKey.Cancellation
import Garbling.Proofs.PartyInputs
import Garbling.Proofs.MultiKey.KeyMaterial
import Garbling.Proofs.Json.Tokens
import Garbling.Proofs.Json.Reading
import Garbling.Proofs.Json.Faithful
import Garbling.Proofs.Json.Documents
import Garbling.Proofs.TweakSeparation
import Garbling.Proofs.Layered.SharedTweak
