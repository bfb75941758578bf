/-!
# The life of a connection

A connection goes from the handshake to being connected, and on to an application. From everywhere
it may go to closing, where only what is queued still goes out, and to closed, where it stays.
-/

namespace LiveIngest

/-- Where a connection is in its life. -/
inductive Phase
  | handshaking
  /-- The handshake is done and no application was asked for. -/
  | connected
  /-- An application accepted the peer. -/
  | appConnected
  /-- The connection is to end; what is queued still goes out. -/
  | closing
  /-- Streams and application were released. -/
  | closed
  deriving DecidableEq, Repr

namespace Phase

def label : Phase → String
  | handshaking => "Handshaking"
  | connected => "Connected"
  | appConnected => "AppConnected"
  | closing => "Closing"
  | closed => "Closed"

/-- All phases, in order. -/
def all : List Phase :=
  [handshaking, connected, appConnected, closing, closed]

def ofLabel? (name : String) : Option Phase :=
  all.find? fun p => p.label = name

def isConnected : Phase → Bool
  | connected | appConnected => true
  | _ => false

def canBecome : Phase → Phase → Bool
  | handshaking, connected => true
  | connected, appConnected => true
  | closed, _ => false
  | _, closing => true
  | _, closed => true
  | _, _ => false

/-- The next phase, or this one when the step may not be made. -/
def advance (p next : Phase) : Phase :=
  if p.canBecome next then next else p

/-- True for the phases that take no more input. -/
def isEnding : Phase → Bool
  | closing | closed => true
  | _ => false

end Phase

end LiveIngest
