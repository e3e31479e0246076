import MachineVault.Bytes
import MachineVault.Text.Utf8
import MachineVault.Machine
import MachineVault.Event
import MachineVault.ChunkIndex
import MachineVault.RecordList
import MachineVault.Frame
import MachineVault.IdentifierCache
import MachineVault.LoadedChunk.Loading
import MachineVault.Interchange
import MachineVault.Backing.Medium
import MachineVault.Backing.Refusing
import MachineVault.Storage.Operation
import MachineVault.Proofs.MessagePack.Fields
import MachineVault.Proofs.Record
import MachineVault.Proofs.RecordList
import MachineVault.Proofs.ChunkIndex
import MachineVault.Proofs.Reload
import MachineVault.Proofs.Backing
import MachineVault.Proofs.IdentifierCache
import MachineVault.Proofs.Storage.Backed
import MachineVault.Proofs.Storage.Verbatim
import MachineVault.Proofs.Storage.Placement
import MachineVault.Proofs.Encoding
import MachineVault.Proofs.Inventory
import MachineVault.Proofs.Storage.Mirroring
import MachineVault.Proofs.CacheTable
import MachineVault.Proofs.Frame
import MachineVault.Proofs.FileSystem
import MachineVault.Proofs.Medium
import MachineVault.Proofs.Storage.Renumbering
import MachineVault.Proofs.Storage.Restarting
import MachineVault.Proofs.Storage.Backstop
import MachineVault.Proofs.Storage.Flushable
import MachineVault.Proofs.RoundTrip
import MachineVault.Proofs.Storage.Retrieving
import MachineVault.Proofs.FileSystem.Sparing
import MachineVault.Proofs.Storage.Guarding
import MachineVault.Proofs.Storage.Superseding
import MachineVault.Proofs.Storage.Carrying
import MachineVault.Proofs.Storage.CrossChecking
import MachineVault.Proofs.Storage.Failing
import MachineVault.Proofs.Storage.Numbering
import MachineVault.Proofs.FileSystem.Writing
import MachineVault.Proofs.Stores
import MachineVault.Proofs.ChunkIndex.Form
import MachineVault.Proofs.LeftToRight
import MachineVault.Proofs.Exact
import MachineVault.Proofs.Record.Rereading
import MachineVault.Proofs.Frame.Damage
import MachineVault.Proofs.Storage.Moving
import MachineVault.Proofs.Storage.Aligning
import MachineVault.Proofs.Storage.Isolating
import MachineVault.Proofs.LoadedChunk.TwoMaps
import MachineVault.Proofs.Loading.Accounting
import MachineVault.Proofs.Loading.Neighbours
import MachineVault.Proofs.IdentifierCache.Pairs
import MachineVault.Proofs.IdentifierCache.Tables
import MachineVault.Proofs.Config
import MachineVault.Proofs.Sections.Listing
import MachineVault.Proofs.Location
import MachineVault.Proofs.FileSystem.Interrupting
