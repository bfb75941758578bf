import LiveIngest.Bytes.Endian

/-!
# Chunk headers

Messages travel in chunks. A chunk opens with a **basic header** of one to three bytes, which names
its format and its chunk stream, and goes on with a **message header** whose fields depend on the
format: format 0 carries all of them, format 1 leaves out the message stream, format 2 also the
length and type, and format 3 everything. A timestamp that does not fit 24 bits follows in four more
bytes.
-/

namespace LiveIngest.Chunk

/-- The value of a timestamp field that announces an extended timestamp. -/
def extendedMark : UInt32 := 0xffffff

/-- The chunk size of a connection before any side changed it. -/
def defaultSize : Nat := 128

/-- No chunk header is larger: three bytes, eleven bytes and an extended timestamp. -/
def maxHeaderSize : Nat := 18

/-- The number of bytes of a basic header that opens with `first`. -/
def basicLength (first : UInt8) : Nat :=
  match first &&& 0x3f with
  | 0 => 2
  | 1 => 3
  | _ => 1

/-- The number of bytes of the message header of a format. -/
def messageHeaderLength : UInt8 → Nat
  | 0 => 11
  | 1 => 7
  | 2 => 3
  | _ => 0

/-- The format and chunk stream of a chunk. -/
structure BasicHeader where
  format : UInt8
  chunkStream : UInt32
  deriving DecidableEq, Repr

namespace BasicHeader

/-- A basic header from its bytes, of which there are as many as the first one announces. -/
def decode (bytes : List UInt8) : BasicHeader :=
  let first := bytes.headD 0
  let rest := bytes.drop 1
  { format := first >>> 6
    chunkStream :=
      match first &&& 0x3f with
      | 0 => .ofNat (Bytes.ofLittleEndian (rest.take 1) + 64)
      | 1 => .ofNat (Bytes.ofLittleEndian (rest.take 2) + 64)
      | id => id.toUInt32 }

/-- The shortest bytes that name the chunk stream. Ids that no header can name come out as the
nearest one of the longest form. -/
def encode (h : BasicHeader) : List UInt8 :=
  let top := h.format <<< 6
  let id := h.chunkStream.toNat
  if 2 ≤ id ∧ id < 64 then [top ||| UInt8.ofNat id]
  else if 64 ≤ id ∧ id < 320 then [top, UInt8.ofNat (id - 64)]
  else (top ||| 1) :: Bytes.littleEndian 2 (min (id - 64) 65535)

end BasicHeader

/-- The fields of a message header, before an extended timestamp is put in. Fields that the format
leaves out are zero. -/
structure MessageHeader where
  format : UInt8
  /-- A point in time in format 0, a distance otherwise. -/
  timestamp : UInt32
  length : Nat
  type : UInt8
  streamId : UInt32
  deriving DecidableEq, Repr

namespace MessageHeader

/-- A message header from the bytes of its format. -/
def decode (format : UInt8) (bytes : List UInt8) : MessageHeader where
  format
  timestamp := if format ≤ 2 then .ofNat (Bytes.ofBigEndian (bytes.take 3)) else 0
  length := if format ≤ 1 then Bytes.ofBigEndian ((bytes.drop 3).take 3) else 0
  type := if format ≤ 1 then (bytes.drop 6).headD 0 else 0
  streamId := if format = 0 then .ofNat (Bytes.ofLittleEndian ((bytes.drop 7).take 4)) else 0

/-- True when four bytes of timestamp follow the header. -/
def isExtended (h : MessageHeader) : Bool :=
  h.format ≤ 2 ∧ extendedMark ≤ h.timestamp

/-- The bytes of the header, with the extended timestamp where one is needed. -/
def encode (h : MessageHeader) : List UInt8 :=
  if 2 < h.format then []
  else
    let field := if h.isExtended then extendedMark else h.timestamp
    Bytes.bigEndian 3 field.toNat ++
      (if h.format ≤ 1 then Bytes.bigEndian 3 h.length ++ [h.type] else []) ++
      (if h.format = 0 then Bytes.littleEndian 4 h.streamId.toNat else []) ++
      (if h.isExtended then Bytes.bigEndian 4 h.timestamp.toNat else [])

end MessageHeader

end LiveIngest.Chunk
