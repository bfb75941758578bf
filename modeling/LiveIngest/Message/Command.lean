import LiveIngest.Amf.Decode
import LiveIngest.Amf.Encode

/-!
# Commands and metadata

A command is a remote call: a name, a transaction number, a command object and arguments, written as
consecutive AMF0 values. Metadata is a sequence of values of which the first is usually a handler
name. Both may travel in an AMF3 message, whose body may open with a zero format byte.

* `Command.parse` takes the name only from a short string; a transaction that is missing or is no
  number is zero, and a missing command object is null;
* `Metadata.unwrapped` drops the wrapper that publishers put around what players expect.
-/

namespace LiveIngest

open Amf

/-- The values of a message body; an AMF3 body may open with a zero byte in front of them. -/
def amfBody (amf3 : Bool) (payload : List UInt8) : List UInt8 :=
  match amf3, payload with
  | true, 0 :: rest => rest
  | _, body => body

/-- A remote call or a reply to one. -/
structure Command where
  name : String
  transaction : Binary64
  object : Value
  arguments : List Value

namespace Command

/-- A reply: `info` under the transaction of the call. -/
def reply (name : String) (transaction : Binary64) (object info : Value) : Command :=
  { name, transaction, object, arguments := [info] }

/-- The reply to a call that went well. -/
def result (transaction : Binary64) (object info : Value) : Command :=
  reply "_result" transaction object info

/-- The reply to a call that was refused. -/
def error (transaction : Binary64) (object info : Value) : Command :=
  reply "_error" transaction object info

def statusObject (level code description : String) : Value :=
  .ofFields [("level", .string level), ("code", .string code),
    ("description", .string description)]

def onStatus (level code description : String) : Command :=
  reply "onStatus" .zero .null (statusObject level code description)

def argument? (c : Command) (index : Nat) : Option Value :=
  c.arguments[index]?

/-- An argument as a time in milliseconds or a stream id: a number that is not negative, cut to an
integer and clamped to 32 bits, and zero in place of anything else. -/
def unsignedArgument (c : Command) (index : Nat) : UInt32 :=
  match (c.argument? index).bind Value.number? with
  | some n => n.toUInt32
  | none => 0

/-- The values of a command on the wire. -/
def values (c : Command) : List Value :=
  .string c.name :: .number c.transaction :: c.object :: c.arguments

/-- The command that a sequence of values stands for. -/
def ofValues : List Value → Except Fault Command
  | .string name :: rest =>
    .ok {
      name
      transaction := (rest.head?.bind Value.number?).getD .zero
      object := (rest.drop 1).head?.getD .null
      arguments := rest.drop 2 }
  | _ => .error .commandNameMissing

def parse (amf3 : Bool) (payload : List UInt8) : Except Fault Command := do
  ofValues (← decodeAll (amfBody amf3 payload))

def serialize (c : Command) : Except Fault (List UInt8) :=
  encodeAll c.values

end Command

/-- The values of a data message. -/
structure Metadata where
  values : List Value

namespace Metadata

/-- The handler name: the text of the first value. -/
def name? (m : Metadata) : Option String :=
  m.values.head?.bind Value.text?

/-- What a player is to get: the values behind `@setDataFrame`, or all values without it. -/
def unwrapped (m : Metadata) : Metadata :=
  if m.name? = some "@setDataFrame" then ⟨m.values.drop 1⟩ else m

def parse (amf3 : Bool) (payload : List UInt8) : Except Fault Metadata :=
  (decodeAll (amfBody amf3 payload)).map Metadata.mk

def serialize (m : Metadata) : Except Fault (List UInt8) :=
  encodeAll m.values

end Metadata

end LiveIngest
