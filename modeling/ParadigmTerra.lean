import ParadigmTerra.Validator.Migration
import ParadigmTerra.Validator.Admission
import ParadigmTerra.Node.Ingress
import ParadigmTerra.Node.Publication
import ParadigmTerra.Node.WalletCodec
import ParadigmTerra.Node.Durability
import ParadigmTerra.Node.Rejected
import ParadigmTerra.Node.Daemon
import ParadigmTerra.Node.Rebuild
import ParadigmTerra.Node.Incremental
import ParadigmTerra.Validator.Resume
import ParadigmTerra.Node.StagedExecution
import ParadigmTerra.Node.ObserverFleet
import ParadigmTerra.Node.Preimages
import ParadigmTerra.Ports.SigningDigests
import ParadigmTerra.Ports.I256
import ParadigmTerra.Canonical.Framing
import ParadigmTerra.Reducer.Lens
import ParadigmTerra.Validator.GasBounds
import ParadigmTerra.Cal.Schema
import ParadigmTerra.Gas
import ParadigmTerra.Canonical.Hash
import ParadigmTerra.Dsl.Dominance
import ParadigmTerra.Dsl.Outcomes
import ParadigmTerra.Dsl.Limits
import ParadigmTerra.Reducer.Conservation
import ParadigmTerra.Reducer.OwnerRecord
import ParadigmTerra.Reducer.Staged
import ParadigmTerra.Node.Codec
import ParadigmTerra.Node.Commitment
import ParadigmTerra.Node.EventLog
import ParadigmTerra.Node.Invariants
import ParadigmTerra.Node.Transcript
import ParadigmTerra.Reducer.UintRange
import ParadigmTerra.Ports.Streams
import ParadigmTerra.Canonical.Trees
import ParadigmTerra.Canonical.Grammar
