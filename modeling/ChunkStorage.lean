import ChunkStorage.MapStore
import ChunkStorage.FailedPut
import ChunkStorage.Lib.System
import ChunkStorage.Sharing
import ChunkStorage.Interference
import ChunkStorage.Interleaving
import ChunkStorage.Commits
import ChunkStorage.Crash
import ChunkStorage.Snapshots
import ChunkStorage.Decoding
import ChunkStorage.Rpc
import ChunkStorage.Service
import ChunkStorage.Grammar
import ChunkStorage.Deletes
import ChunkStorage.Client
import ChunkStorage.UploadReport
import ChunkStorage.ClientFiles
import ChunkStorage.Download
import ChunkStorage.Destinations
import ChunkStorage.Cleanup
import ChunkStorage.Versions
import ChunkStorage.Network
import ChunkStorage.UniqueFd
import ChunkStorage.Reassembly
import ChunkStorage.Checksums
import ChunkStorage.NameLimits
import ChunkStorage.Emission
import ChunkStorage.ReceiveBounds
import ChunkStorage.Arithmetic
import ChunkStorage.Transparency
import ChunkStorage.FileHost
import ChunkStorage.Corruption
import ChunkStorage.RoundTrip
import ChunkStorage.Exchange
import ChunkStorage.TwoPasses
import ChunkStorage.Lib.Linearization
import ChunkStorage.PutAmong
import ChunkStorage.Answers
import ChunkStorage.Linearizable
import ChunkStorage.Acknowledged
import ChunkStorage.Lib.Wrapping
import ChunkStorage.Worker
import ChunkStorage.Updates
