import TFCommon.Lib.Counted
import TFCommon.Lib.Loop
import TFCommon.Lib.Words

/-! `TBinaryProtocol` over a `TMemoryBuffer`, the reads and writes of a message, and the functions of `sandesh.cc` that
write a message into a buffer and read messages from one. Marks that take no bytes (the begin and the end of a struct or
of an element, the end of a field or of a container) are left out. -/
namespace TFCommon.Sandesh.Binary
open Words Counted

abbrev Byte := BitVec 8

inductive TType where
  | stop | bool | byte | double | i16 | i32 | u64 | i64 | string | struct | map | set | list | u16 | u32 | xml | ipv4
  | uuid | ipaddr
deriving DecidableEq, Repr

def TType.code : TType → Byte
  | .stop => 0
  | .bool => 2
  | .byte => 3
  | .double => 4
  | .i16 => 6
  | .i32 => 8
  | .u64 => 9
  | .i64 => 10
  | .string => 11
  | .struct => 12
  | .map => 13
  | .set => 14
  | .list => 15
  | .u16 => 19
  | .u32 => 20
  | .xml => 21
  | .ipv4 => 22
  | .uuid => 23
  | .ipaddr => 24

/-! ### Value trees -/

inductive Address where
  | v4 (bytes : Vector Byte 4)
  | v6 (bytes : Vector Byte 16)
deriving DecidableEq, Repr

/-- A value of a base type; an enumeration is written as an `i32`. -/
inductive Scalar where
  | bool (b : Bool)
  | byte (w : BitVec 8)
  | i16 (w : BitVec 16)
  | i32 (w : BitVec 32)
  | i64 (w : BitVec 64)
  | u16 (w : BitVec 16)
  | u32 (w : BitVec 32)
  | u64 (w : BitVec 64)
  | ipv4 (w : BitVec 32)
  | ipaddr (a : Address)
  | double (bits : BitVec 64)
  | string (s : List Byte)
  | binary (s : List Byte)
  | xml (s : List Byte)
  | uuid (bytes : Vector Byte 16)
deriving DecidableEq, Repr

def Scalar.type : Scalar → TType
  | .bool _ => .bool
  | .byte _ => .byte
  | .i16 _ => .i16
  | .i32 _ => .i32
  | .i64 _ => .i64
  | .u16 _ => .u16
  | .u32 _ => .u32
  | .u64 _ => .u64
  | .ipv4 _ => .ipv4
  | .ipaddr _ => .ipaddr
  | .double _ => .double
  | .string _ | .binary _ => .string
  | .xml _ => .xml
  | .uuid _ => .uuid

mutual

inductive Value where
  | scalar (s : Scalar)
  | struct (members : Members)
  | map (key value : TType) (entries : Entries)
  | set (type : TType) (elements : Elements)
  | list (type : TType) (elements : Elements)

inductive Members where
  | nil
  | cons (id : BitVec 16) (value : Value) (rest : Members)

inductive Elements where
  | nil
  | cons (value : Value) (rest : Elements)

inductive Entries where
  | nil
  | cons (key value : Value) (rest : Entries)

end

def Value.type : Value → TType
  | .scalar s => s.type
  | .struct _ => .struct
  | .map _ _ _ => .map
  | .set _ _ => .set
  | .list _ _ => .list

def Elements.size : Elements → Nat
  | .nil => 0
  | .cons _ rest => rest.size + 1

def Entries.size : Entries → Nat
  | .nil => 0
  | .cons _ _ rest => rest.size + 1

structure Message where
  name : List Byte
  members : Members

def afInet : Byte := 2

def afInet6 : Byte := 10

/-! ### The write calls -/

/-- A `TMemoryBuffer` that does not own its memory: what is written, and the space behind it. -/
structure Sink where
  bytes : List Byte := []
  space : Nat
deriving DecidableEq, Repr

def Sink.push (s : Sink) (data : List Byte) : Sink := ⟨s.bytes ++ data, s.space - data.length⟩

def ENOMEM : Nat := 12

def Sink.write (s : Sink) (data : List Byte) : Nat × Sink :=
  if data.length ≤ s.space then (0, s.push data) else (ENOMEM, s)

/-- The writers do not look at the result of `write`, and return the length. -/
def put (data : List Byte) : Counted Sink Unit := fun s => (.done (BitVec.ofNat 32 data.length) (), (s.write data).2)

/-- The bytes of an integer in network order, as `htonl` leaves them in the memory of a little-endian machine. -/
def net (n : Nat) (w : BitVec (8 * n)) : List Byte := (toBytes n (byteSwap n w)).toList

def writeBool (b : Bool) : Counted Sink Unit := put [if b then 1 else 0]
def writeByte (w : BitVec 8) : Counted Sink Unit := put [w]
def writeI16 (w : BitVec 16) : Counted Sink Unit := put (net 2 w)
def writeI32 (w : BitVec 32) : Counted Sink Unit := put (net 4 w)
def writeI64 (w : BitVec 64) : Counted Sink Unit := put (net 8 w)
def writeU16 (w : BitVec 16) : Counted Sink Unit := put (net 2 w)
def writeU32 (w : BitVec 32) : Counted Sink Unit := put (net 4 w)
def writeU64 (w : BitVec 64) : Counted Sink Unit := put (net 8 w)
def writeIPV4 (w : BitVec 32) : Counted Sink Unit := put (net 4 w)
def writeDouble (bits : BitVec 64) : Counted Sink Unit := put (net 8 bits)
def writeUUID (bytes : Vector Byte 16) : Counted Sink Unit := put bytes.toList

def writeIPADDR : Address → Counted Sink Unit
  | .v4 bytes => do
    writeByte afInet
    put bytes.toList
  | .v6 bytes => do
    writeByte afInet6
    put bytes.toList

def writeString (s : List Byte) : Counted Sink Unit := call do
  writeI32 (BitVec.ofNat 32 s.length)
  if 0 < s.length % 2 ^ 32 then put (s.take (s.length % 2 ^ 32)) else pure ()

def writeBinary (s : List Byte) : Counted Sink Unit := writeString s
def writeXML (s : List Byte) : Counted Sink Unit := writeString s
def writeSandeshBegin (name : List Byte) : Counted Sink Unit := writeString name

def writeFieldBegin (type : TType) (id : BitVec 16) : Counted Sink Unit := do
  writeByte type.code
  writeI16 id

def writeFieldStop : Counted Sink Unit := writeByte TType.stop.code

def writeMapBegin (key value : TType) (size : Nat) : Counted Sink Unit := do
  writeByte key.code
  writeByte value.code
  writeI32 (BitVec.ofNat 32 size)

def writeListBegin (type : TType) (size : Nat) : Counted Sink Unit := do
  writeByte type.code
  writeI32 (BitVec.ofNat 32 size)

def writeSetBegin (type : TType) (size : Nat) : Counted Sink Unit := do
  writeByte type.code
  writeI32 (BitVec.ofNat 32 size)

def Scalar.write : Scalar → Counted Sink Unit
  | .bool b => writeBool b
  | .byte w => writeByte w
  | .i16 w => writeI16 w
  | .i32 w => writeI32 w
  | .i64 w => writeI64 w
  | .u16 w => writeU16 w
  | .u32 w => writeU32 w
  | .u64 w => writeU64 w
  | .ipv4 w => writeIPV4 w
  | .ipaddr a => writeIPADDR a
  | .double bits => writeDouble bits
  | .string s => writeString s
  | .binary s => writeBinary s
  | .xml s => writeXML s
  | .uuid bytes => writeUUID bytes

mutual

/-- The generated writer. A struct has a `write` function of its own, a container is written in that of its struct. -/
def Value.write : Value → Counted Sink Unit
  | .scalar s => s.write
  | .struct members => call do
    members.write
    writeFieldStop
  | .map key value entries => do
    writeMapBegin key value entries.size
    entries.write
  | .set type elements => do
    writeSetBegin type elements.size
    elements.write
  | .list type elements => do
    writeListBegin type elements.size
    elements.write

def Members.write : Members → Counted Sink Unit
  | .nil => pure ()
  | .cons id value rest => do
    writeFieldBegin value.type id
    value.write
    rest.write

def Elements.write : Elements → Counted Sink Unit
  | .nil => pure ()
  | .cons value rest => do
    value.write
    rest.write

def Entries.write : Entries → Counted Sink Unit
  | .nil => pure ()
  | .cons key value rest => do
    key.write
    value.write
    rest.write

end

def Message.write (m : Message) : Counted Sink Unit := call do
  writeSandeshBegin m.name
  m.members.write
  writeFieldStop

def Message.writeBinary (m : Message) (bufLen : BitVec 32) : Int × List Byte :=
  let (returned, sink) := m.write { space := bufLen.toNat }
  (returned.value, sink.bytes)

/-! ### The read calls -/

/-- A `TMemoryBuffer` that is read. The memory that a read leaves uninitialised holds anything. -/
structure Source where
  bytes : List Byte
  memory : Nat → Byte

namespace Source

def front (s : Source) (n : Nat) : List Byte := s.bytes.take n ++ (List.range (n - s.bytes.length)).map s.memory

def after (s : Source) (n : Nat) : Source := ⟨s.bytes.drop n, fun i => s.memory (n - s.bytes.length + i)⟩

def readAll (s : Source) (n : Nat) : Int × List Byte × Source :=
  (if n ≤ s.bytes.length then n else -1, s.front n, s.after n)

end Source

/-- The readers do not look at the result of `readAll`, and return the length. -/
def fetch (n : Nat) : Counted Source (List Byte) := fun s =>
  let (_, bytes, t) := s.readAll n
  (.done (BitVec.ofNat 32 n) bytes, t)

def word (n : Nat) (bytes : List Byte) : BitVec (8 * n) := byteSwap n (ofBytes n (Vector.ofFn fun i => bytes.getD i 0))

def readInt (n : Nat) : Counted Source (BitVec (8 * n)) := do
  let bytes ← fetch n
  pure (word n bytes)

def readBool : Counted Source Bool := do
  let bytes ← fetch 1
  pure (bytes.getD 0 0 != 0)

def readByte : Counted Source (BitVec 8) := readInt 1
def readI16 : Counted Source (BitVec 16) := readInt 2
def readI32 : Counted Source (BitVec 32) := readInt 4
def readI64 : Counted Source (BitVec 64) := readInt 8
def readU16 : Counted Source (BitVec 16) := readInt 2
def readU32 : Counted Source (BitVec 32) := readInt 4
def readU64 : Counted Source (BitVec 64) := readInt 8
def readIPV4 : Counted Source (BitVec 32) := readInt 4
def readDouble : Counted Source (BitVec 64) := readInt 8
def readUUID : Counted Source (List Byte) := fetch 16

def readIPADDR : Counted Source (Byte × List Byte) := do
  let version ← readByte
  if version = afInet then
    let bytes ← fetch 4
    pure (version, bytes)
  else if version = afInet6 then
    let bytes ← fetch 16
    pure (version, bytes)
  else fail (-1)

/-- `string_limit_` and `container_limit_`; without a limit, as by default, they are 0. -/
structure Limits where
  string : Nat := 0
  container : Nat := 0

variable (limits : Limits)

/-- What the buffer holds is borrowed, anything longer is read into a buffer of the protocol. -/
def borrowOrFetch (size : Nat) : Counted Source (List Byte) := fun s =>
  if size ≤ s.bytes.length then (.done (BitVec.ofNat 32 size) (s.bytes.take size), s.after size) else fetch size s

def readStringBody (size : BitVec 32) : Counted Source (List Byte) :=
  if size.msb then fail (-1)
  else if 0 < limits.string ∧ limits.string < size.toNat then fail (-1)
  else if size = 0 then pure []
  else borrowOrFetch size.toNat

def readString : Counted Source (List Byte) := call do
  let size ← readI32
  readStringBody limits size

def readBinary : Counted Source (List Byte) := readString limits
def readXML : Counted Source (List Byte) := readString limits
def readSandeshBegin : Counted Source (List Byte) := readString limits

def readFieldBegin : Counted Source (Byte × BitVec 16) := do
  let type ← readByte
  if type = TType.stop.code then pure (type, 0)
  else
    let id ← readI16
    pure (type, id)

def readSize : Counted Source (BitVec 32) := do
  let size ← readI32
  if size.msb then fail (-1)
  else if limits.container ≠ 0 ∧ limits.container < size.toNat then fail (-1)
  else pure size

def readMapBegin : Counted Source (Byte × Byte × BitVec 32) := do
  let key ← readByte
  let value ← readByte
  let size ← readSize limits
  pure (key, value, size)

def readListBegin : Counted Source (Byte × BitVec 32) := do
  let type ← readByte
  let size ← readSize limits
  pure (type, size)

/-- Of a set, a negative size is only logged. -/
def readSetBegin : Counted Source (Byte × BitVec 32) := do
  let type ← readByte
  let size ← readI32
  if size.msb then pure (type, size)
  else if limits.container ≠ 0 ∧ limits.container < size.toNat then fail (-1)
  else pure (type, size)

def Scalar.read : Scalar → Counted Source Unit
  | .bool _ => do let _ ← readBool; pure ()
  | .byte _ => do let _ ← readByte; pure ()
  | .i16 _ => do let _ ← readI16; pure ()
  | .i32 _ => do let _ ← readI32; pure ()
  | .i64 _ => do let _ ← readI64; pure ()
  | .u16 _ => do let _ ← readU16; pure ()
  | .u32 _ => do let _ ← readU32; pure ()
  | .u64 _ => do let _ ← readU64; pure ()
  | .ipv4 _ => do let _ ← readIPV4; pure ()
  | .ipaddr _ => do let _ ← readIPADDR; pure ()
  | .double _ => do let _ ← readDouble; pure ()
  | .string _ => do let _ ← readString limits; pure ()
  | .binary _ => do let _ ← readBinary limits; pure ()
  | .xml _ => do let _ ← readXML limits; pure ()
  | .uuid _ => do let _ ← readUUID; pure ()

mutual

def Value.read : Value → Counted Source Unit
  | .scalar s => s.read limits
  | .struct members => call do
    members.read
    let _ ← readFieldBegin
    pure ()
  | .map _ _ entries => do
    let _ ← readMapBegin limits
    entries.read
  | .set _ elements => do
    let _ ← readSetBegin limits
    elements.read
  | .list _ elements => do
    let _ ← readListBegin limits
    elements.read

def Members.read : Members → Counted Source Unit
  | .nil => pure ()
  | .cons _ value rest => do
    let _ ← readFieldBegin
    value.read
    rest.read

def Elements.read : Elements → Counted Source Unit
  | .nil => pure ()
  | .cons value rest => do
    value.read
    rest.read

def Entries.read : Entries → Counted Source Unit
  | .nil => pure ()
  | .cons key value rest => do
    key.read
    value.read
    rest.read

end

def Message.read (m : Message) : Counted Source Unit := call do
  let _ ← readSandeshBegin {}
  m.members.read {}
  let _ ← readFieldBegin
  pure ()

def Message.readBinary (m : Message) (buf : List Byte) (memory : Nat → Byte) : Int := (m.read ⟨buf, memory⟩).1.value

/-- `Sandesh::ReceiveBinaryMsgOne`, with the memory behind what is used of it. -/
def receiveBinaryMsgOne (factory : List Byte → Option (Counted Source Unit)) (buf : List Byte) (memory : Nat → Byte) :
    Int × (Nat → Byte) :=
  match readSandeshBegin {} ⟨buf, memory⟩ with
  | (.failed code, t) => (code.toInt, t.memory)
  | (.done _ name, t) =>
    match factory name with
    | none => (-1, t.memory)
    | some read =>
      let (returned, u) := read ⟨buf, t.memory⟩
      (returned.value, u.memory)

/-- A turn of the loop of `ReceiveBinaryMsg`; `xfer` is a `u_int32_t`. -/
def receiveTurn (factory : List Byte → Option (Counted Source Unit)) (buf : List Byte) :
    BitVec 32 × (Nat → Byte) → Option (Turn (BitVec 32 × (Nat → Byte)) Int)
  | (xfer, memory) =>
    if xfer.toNat < buf.length then
      let (ret, memory) := receiveBinaryMsgOne factory (buf.drop xfer.toNat) memory
      if ret < 0 then some (.exit ret) else some (.again (xfer + BitVec.ofInt 32 ret, memory))
    else some (.exit xfer.toInt)

def receiveBinaryMsg (factory : List Byte → Option (Counted Source Unit)) (buf : List Byte) (memory : Nat → Byte)
    (turns : Nat) : Option Int :=
  loop (receiveTurn factory buf) turns (0, memory)

/-! ### The encoding -/

def encodeString (s : List Byte) : List Byte := net 4 (BitVec.ofNat 32 s.length) ++ s.take (s.length % 2 ^ 32)

def Scalar.encode : Scalar → List Byte
  | .bool b => [if b then 1 else 0]
  | .byte w => [w]
  | .i16 w | .u16 w => net 2 w
  | .i32 w | .u32 w | .ipv4 w => net 4 w
  | .i64 w | .u64 w | .double w => net 8 w
  | .ipaddr (.v4 bytes) => afInet :: bytes.toList
  | .ipaddr (.v6 bytes) => afInet6 :: bytes.toList
  | .string s | .binary s | .xml s => encodeString s
  | .uuid bytes => bytes.toList

def encodeSize (size : Nat) : List Byte := net 4 (BitVec.ofNat 32 size)

mutual

def Value.encode : Value → List Byte
  | .scalar s => s.encode
  | .struct members => members.encode ++ [TType.stop.code]
  | .map key value entries => [key.code, value.code] ++ encodeSize entries.size ++ entries.encode
  | .set type elements => [type.code] ++ encodeSize elements.size ++ elements.encode
  | .list type elements => [type.code] ++ encodeSize elements.size ++ elements.encode

def Members.encode : Members → List Byte
  | .nil => []
  | .cons id value rest => [value.type.code] ++ net 2 id ++ value.encode ++ rest.encode

def Elements.encode : Elements → List Byte
  | .nil => []
  | .cons value rest => value.encode ++ rest.encode

def Entries.encode : Entries → List Byte
  | .nil => []
  | .cons key value rest => key.encode ++ value.encode ++ rest.encode

end

def Message.encode (m : Message) : List Byte := encodeString m.name ++ m.members.encode ++ [TType.stop.code]

end TFCommon.Sandesh.Binary
