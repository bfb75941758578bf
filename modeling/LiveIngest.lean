import LiveIngest.Amf.Decode
import LiveIngest.Amf.Encode
import LiveIngest.Amf.Value
import LiveIngest.Binary64
import LiveIngest.Bits.Basic
import LiveIngest.Bits.Emulation
import LiveIngest.Bits.Leb128
import LiveIngest.Bits.Reader
import LiveIngest.Bytes.Buffer
import LiveIngest.Bytes.Endian
import LiveIngest.Bytes.Slices
import LiveIngest.Bytes.Take
import LiveIngest.Chunk.Assembly
import LiveIngest.Chunk.Demux
import LiveIngest.Chunk.Header
import LiveIngest.Chunk.Lane
import LiveIngest.Chunk.Meter
import LiveIngest.Chunk.Mux
import LiveIngest.Codec.Aac
import LiveIngest.Codec.Av1
import LiveIngest.Codec.Avc
import LiveIngest.Codec.AvcSps
import LiveIngest.Codec.Hevc
import LiveIngest.Codec.HevcSps
import LiveIngest.Codec.Obu
import LiveIngest.Codec.Units
import LiveIngest.Connection.Basic
import LiveIngest.Connection.Calls
import LiveIngest.Connection.Input
import LiveIngest.Connection.Intake
import LiveIngest.Connection.Link
import LiveIngest.Connection.Phase
import LiveIngest.Digest.Hmac
import LiveIngest.Digest.Sha256
import LiveIngest.Fault
import LiveIngest.Flv.Audio
import LiveIngest.Flv.Tag
import LiveIngest.Flv.Video
import LiveIngest.Handshake.Machine
import LiveIngest.Handshake.Reply
import LiveIngest.Handshake.Scheme
import LiveIngest.Keyed
import LiveIngest.Message.Aggregate
import LiveIngest.Message.Basic
import LiveIngest.Message.Command
import LiveIngest.Message.Control
import LiveIngest.Message.Outgoing
import LiveIngest.Message.Packet
import LiveIngest.Proofs.Amf.Encode
import LiveIngest.Proofs.Amf.Fitting
import LiveIngest.Proofs.Amf.Nesting
import LiveIngest.Proofs.Amf.RoundTrip
import LiveIngest.Proofs.Amf.Rules
import LiveIngest.Proofs.Bits.Bounds
import LiveIngest.Proofs.Bits.Emulation
import LiveIngest.Proofs.Bits.Leb128
import LiveIngest.Proofs.Bits.Packing
import LiveIngest.Proofs.Bits.Reading
import LiveIngest.Proofs.Bits.Registers
import LiveIngest.Proofs.Bits.Taking
import LiveIngest.Proofs.Bits.Writing
import LiveIngest.Proofs.Bytes.Endian
import LiveIngest.Proofs.Bytes.Masks
import LiveIngest.Proofs.Bytes.Take
import LiveIngest.Proofs.Chunk.Delivery
import LiveIngest.Proofs.Chunk.Dues
import LiveIngest.Proofs.Chunk.Frame
import LiveIngest.Proofs.Chunk.Lanes
import LiveIngest.Proofs.Chunk.Lost
import LiveIngest.Proofs.Chunk.Orphans
import LiveIngest.Proofs.Chunk.Progress
import LiveIngest.Proofs.Chunk.Pulling
import LiveIngest.Proofs.Chunk.Queues
import LiveIngest.Proofs.Chunk.Reading
import LiveIngest.Proofs.Chunk.Receipts
import LiveIngest.Proofs.Chunk.Reference
import LiveIngest.Proofs.Chunk.Refinement
import LiveIngest.Proofs.Chunk.Registers
import LiveIngest.Proofs.Chunk.Simulation
import LiveIngest.Proofs.Chunk.Stalling
import LiveIngest.Proofs.Chunk.Turns
import LiveIngest.Proofs.Codec.AacConfig
import LiveIngest.Proofs.Codec.Av1Syntax
import LiveIngest.Proofs.Codec.AvcRegisters
import LiveIngest.Proofs.Codec.AvcSizes
import LiveIngest.Proofs.Codec.AvcSyntax
import LiveIngest.Proofs.Codec.HevcSyntax
import LiveIngest.Proofs.Codec.Pictures
import LiveIngest.Proofs.Codec.Positions
import LiveIngest.Proofs.Codec.Records
import LiveIngest.Proofs.Codec.Units
import LiveIngest.Proofs.Connection.Acknowledging
import LiveIngest.Proofs.Connection.Bytewise
import LiveIngest.Proofs.Connection.Calling
import LiveIngest.Proofs.Connection.Coherence
import LiveIngest.Proofs.Connection.Creating
import LiveIngest.Proofs.Connection.Deleting
import LiveIngest.Proofs.Connection.Dispatching
import LiveIngest.Proofs.Connection.Endurance
import LiveIngest.Proofs.Connection.Handling
import LiveIngest.Proofs.Connection.Lifecycle
import LiveIngest.Proofs.Connection.Marks
import LiveIngest.Proofs.Connection.Moves
import LiveIngest.Proofs.Connection.Quiescence
import LiveIngest.Proofs.Connection.Reachable
import LiveIngest.Proofs.Connection.Replying
import LiveIngest.Proofs.Connection.Runs
import LiveIngest.Proofs.Connection.Similar
import LiveIngest.Proofs.Connection.Slicing
import LiveIngest.Proofs.Flv.Codes
import LiveIngest.Proofs.Flv.Feeding
import LiveIngest.Proofs.Flv.RoundTrip
import LiveIngest.Proofs.Handshake.Bytewise
import LiveIngest.Proofs.Handshake.Digests
import LiveIngest.Proofs.Handshake.Packets
import LiveIngest.Proofs.Handshake.Slicing
import LiveIngest.Proofs.Keyed
import LiveIngest.Proofs.Message.Aggregate
import LiveIngest.Proofs.Message.Command
import LiveIngest.Proofs.Message.Control
import LiveIngest.Proofs.Rtp.Elements
import LiveIngest.Proofs.Rtp.Fragments
import LiveIngest.Proofs.Rtp.Framing
import LiveIngest.Proofs.Rtp.Gating
import LiveIngest.Proofs.Rtp.Joining
import LiveIngest.Proofs.Rtp.Obus
import LiveIngest.Proofs.Rtp.Payloads
import LiveIngest.Proofs.Rtp.Reassembly
import LiveIngest.Proofs.Rtp.Routing
import LiveIngest.Proofs.Rtp.Runs
import LiveIngest.Proofs.Rtp.Sendable
import LiveIngest.Proofs.Rtp.Snapping
import LiveIngest.Proofs.Service.KeepsOpen
import LiveIngest.Proofs.Service.Recorded
import LiveIngest.Proofs.Session.Flushing
import LiveIngest.Proofs.Session.Shutdown
import LiveIngest.Rtp.Aac
import LiveIngest.Rtp.Av1
import LiveIngest.Rtp.Nal
import LiveIngest.Rtp.Output
import LiveIngest.Rtp.Router
import LiveIngest.Rtp.Video
import LiveIngest.Service.Basic
import LiveIngest.Service.Journal
import LiveIngest.Service.Noted
import LiveIngest.Service.Publisher
import LiveIngest.Session
import LiveIngest.Settings
