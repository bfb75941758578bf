import LiveIngest.Session

/-!
# Settings

What an operator chooses for a service. `Settings.checked` names the first choice that cannot work;
settings that pass give every connection its terms and every session its buffers.
-/

namespace LiveIngest

/-- The choices of an operator. -/
structure Settings where
  host : String
  tcpPort : UInt16
  maxConnections : Nat
  /-- What is announced to a peer that connects. -/
  terms : Terms
  buffers : BufferSizes
  payloadLimit : Nat
  deriving DecidableEq, Repr

namespace Settings

/-- The settings of an operator who chooses nothing. -/
def standard : Settings where
  host := "0.0.0.0"
  tcpPort := 1935
  maxConnections := 1000
  terms := .standard
  buffers := ⟨65536, 65536⟩
  payloadLimit := 1200

/-- The settings, or what is wrong with them. A write buffer has to hold a chunk of full size, and
an RTP payload a fragmentation header and a byte. -/
def checked (s : Settings) : Except Fault Settings := do
  if s.tcpPort = 0 then throw .zeroPort
  if s.maxConnections = 0 then throw .zeroConnections
  if s.terms.chunkSize < 128 then throw .chunkSizeTooSmall
  if 65536 < s.terms.chunkSize then throw .chunkSizeTooLarge
  if 2 < s.terms.limitType then throw (.limitTypeUnknown s.terms.limitType)
  if s.buffers.read = 0 then throw .zeroReadBuffer
  if s.buffers.write < s.terms.chunkSize.toNat + Chunk.maxHeaderSize then
    throw (.writeBufferTooSmall s.buffers.write s.terms.chunkSize)
  if s.payloadLimit < 4 then throw (.payloadLimitTooSmall s.payloadLimit)
  return s

def address (s : Settings) : String :=
  s.host ++ ":" ++ toString s.tcpPort

/-- The fault of settings whose address cannot be listened on. -/
def addressFault (s : Settings) : Fault :=
  .invalidAddress s.address

end Settings

end LiveIngest
