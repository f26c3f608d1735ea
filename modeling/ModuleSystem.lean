import ModuleSystem.Loader.Config
import ModuleSystem.Main
import ModuleSystem.Script.Session
import ModuleSystem.Proofs.Table
import ModuleSystem.Proofs.ImportMap.Order
import ModuleSystem.Proofs.ImportMap.Reference
import ModuleSystem.Proofs.ImportMap.Entries
import ModuleSystem.Proofs.ImportMap.Composition
import ModuleSystem.Proofs.ImportMap.Directories
import ModuleSystem.Proofs.ImportMap.Containment
import ModuleSystem.Proofs.ImportMap.Roundtrip
import ModuleSystem.Proofs.ImportMap.Diagnostics
import ModuleSystem.Proofs.ImportMap.Absolute
import ModuleSystem.Proofs.Text.Quoted
import ModuleSystem.Proofs.ImportMap.Normalization
import ModuleSystem.Proofs.Url.Shape
import ModuleSystem.Proofs.Url.Reading
import ModuleSystem.Proofs.Url.Containment
import ModuleSystem.Proofs.Url.Setting
import ModuleSystem.Proofs.Url.Heads
import ModuleSystem.Proofs.Url.Rereading
import ModuleSystem.Proofs.Url.Settled
import ModuleSystem.Proofs.Extension
import ModuleSystem.Proofs.Number.Shortest
import ModuleSystem.Proofs.Number.Text
import ModuleSystem.Proofs.Json.Writing
import ModuleSystem.Proofs.Loader.Rules
import ModuleSystem.Proofs.Loader.Registry
import ModuleSystem.Proofs.Loader.Changes
import ModuleSystem.Proofs.Loader.Run
import ModuleSystem.Proofs.Loader.Roles
import ModuleSystem.Proofs.Loader.Soundness
import ModuleSystem.Proofs.Loader.Trace
import ModuleSystem.Proofs.Loader.Flow
import ModuleSystem.Proofs.Loader.Stages
import ModuleSystem.Proofs.Loader.Bodies
import ModuleSystem.Proofs.Loader.Answers
import ModuleSystem.Proofs.Loader.Listing
import ModuleSystem.Proofs.Loader.Once
import ModuleSystem.Proofs.Loader.Index
import ModuleSystem.Proofs.Loader.Sessions
import ModuleSystem.Proofs.Loader.Walks
import ModuleSystem.Proofs.Loader.Barrier
import ModuleSystem.Proofs.Loader.Living
import ModuleSystem.Proofs.Loader.Nesting
import ModuleSystem.Proofs.Loader.Collecting
import ModuleSystem.Proofs.Loader.Turns
import ModuleSystem.Proofs.Loader.Execution
import ModuleSystem.Proofs.Loader.Outlets
import ModuleSystem.Proofs.Loader.Deliveries
import ModuleSystem.Proofs.Loader.Handing
import ModuleSystem.Proofs.Loader.Updates
import ModuleSystem.Proofs.Loader.Ledger
import ModuleSystem.Proofs.Loader.Listening
import ModuleSystem.Proofs.Loader.Silencing
import ModuleSystem.Proofs.Loader.Adopting
import ModuleSystem.Proofs.Loader.Resolving
import ModuleSystem.Proofs.Loader.Attachment
import ModuleSystem.Proofs.Loader.Namespaces
import ModuleSystem.Proofs.Loader.Transport
import ModuleSystem.Proofs.Loader.Descent
import ModuleSystem.Proofs.Loader.Faults
import ModuleSystem.Proofs.Loader.Progress
import ModuleSystem.Proofs.Loader.Exports
import ModuleSystem.Proofs.Loader.Blocking
import ModuleSystem.Proofs.Loader.Causes
import ModuleSystem.Proofs.Loader.Outcomes
import ModuleSystem.Proofs.Loader.Stalls
import ModuleSystem.Proofs.Loader.Gathering
import ModuleSystem.Proofs.Loader.PostOrder
import ModuleSystem.Proofs.Loader.Synchronous
import ModuleSystem.Proofs.Loader.Instantiating
import ModuleSystem.Proofs.Loader.Linking
import ModuleSystem.Proofs.Loader.Exploring
import ModuleSystem.Proofs.Loader.Performing
import ModuleSystem.Proofs.Loader.Idling
import ModuleSystem.Proofs.Loader.DepthFirst
