import FluxKV.ToMathlib.BigEndian

/-! # The memcached binary protocol header

`protocol.h` fixes a 24-byte packed header. The two length fields, the vbucket and the CAS travel in
network order and are swapped by `ntoh`; the opaque is never swapped, so it is read in memory order.
Only the opcodes the server knows are dispatched.
-/

namespace FluxKV.Protocol

open BigEndian

abbrev Bytes := List UInt8

/-- `enum class Opcode`. -/
inductive Opcode where
  | get
  | set
  | delete
  | noop
  | hello
  | saslListMechs
  | saslAuth
  | saslStep
  | selectBucket
  | getClusterConfig
  | getErrorMap
deriving DecidableEq, Repr

namespace Opcode

/-- The byte an opcode travels as. -/
def code : Opcode → UInt8
  | get => 0x00
  | set => 0x01
  | delete => 0x04
  | noop => 0x0a
  | hello => 0x1f
  | saslListMechs => 0x20
  | saslAuth => 0x21
  | saslStep => 0x22
  | selectBucket => 0x89
  | getClusterConfig => 0xb5
  | getErrorMap => 0xfe

/-- The opcodes `parseAndDispatch` accepts, in the order it tests them. -/
def accepted : List Opcode :=
  [get, set, delete, noop, hello, saslListMechs, saslAuth, saslStep, selectBucket, getClusterConfig,
    getErrorMap]

/-- The opcode of a byte, absent for one the server closes the connection on. -/
def ofCode? (byte : UInt8) : Option Opcode := accepted.find? fun op => op.code == byte

theorem ofCode?_code (op : Opcode) : ofCode? op.code = some op := by cases op <;> rfl

end Opcode

def kRequestMagic : UInt8 := 0x80
def kHeaderSize : ℕ := 24

/-- `struct McbpHeader`, after `ntoh`. -/
structure McbpHeader where
  magic : UInt8
  opcode : UInt8
  keyLen : UInt16
  extrasLen : UInt8
  datatype : UInt8
  specific : UInt16
  bodyLen : UInt32
  opaqueWord : UInt32
  cas : UInt64
deriving DecidableEq, Repr

/-- `len` bytes from offset `off`. -/
def window (bytes : Bytes) (off len : ℕ) : Bytes := (bytes.drop off).take len

/-- Pull a header from the front of the read buffer and swap its fields to host order. The opaque is
loaded as a little-endian host loads it. -/
def McbpHeader.pull (bytes : Bytes) : McbpHeader where
  magic := bytes.getD 0 0
  opcode := bytes.getD 1 0
  keyLen := .ofNat (beNat (window bytes 2 2))
  extrasLen := bytes.getD 4 0
  datatype := bytes.getD 5 0
  specific := .ofNat (beNat (window bytes 6 2))
  bodyLen := .ofNat (beNat (window bytes 8 4))
  opaqueWord := .ofNat (beNat (window bytes 12 4).reverse)
  cas := .ofNat (beNat (window bytes 16 8))

theorem window_append {bytes : Bytes} {off len : ℕ} (inside : off + len ≤ bytes.length) (later : Bytes) :
    window (bytes ++ later) off len = window bytes off len := by
  rw [window, List.drop_append_of_le_length (by omega), List.take_append_of_le_length (by rw [List.length_drop]; omega),
    window]

/-- A header is read from the first 24 bytes. -/
theorem McbpHeader.pull_append {bytes : Bytes} (enough : kHeaderSize ≤ bytes.length) (later : Bytes) :
    McbpHeader.pull (bytes ++ later) = McbpHeader.pull bytes := by
  unfold kHeaderSize at enough
  have byte : ∀ i < 24, (bytes ++ later).getD i 0 = bytes.getD i 0 := fun i small => by
    rw [List.getD_eq_getElem?_getD, List.getElem?_append_left (by omega), List.getD_eq_getElem?_getD]
  simp only [McbpHeader.pull, byte _ (by decide : 0 < 24), byte _ (by decide : 1 < 24), byte _ (by decide : 4 < 24),
    byte _ (by decide : 5 < 24)]
  rw [window_append (by omega), window_append (by omega), window_append (by omega), window_append (by omega),
    window_append (by omega)]

end FluxKV.Protocol
