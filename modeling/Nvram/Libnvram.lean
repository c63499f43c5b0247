import Nvram.Basic

/-!
# The libnvram API as a parameter

libnvram is a submodule that is not in the tree, so everything the program takes from it is
a parameter.  The types keep the members and the bits the program itself looks at; the
functions are the ones it calls.  Nothing is assumed of them here but that a header has
bytes: the results that need documented behaviour name it as a hypothesis.
-/

namespace Nvram

/-- `enum libnvram_type`. -/
inductive LibnvramType where
  | list
  deriving DecidableEq, Repr

/-- `struct libnvram_header`: payload type, transaction counter and payload length. -/
structure LibnvramHeader where
  type : LibnvramType
  counter : UInt32
  len : UInt32
  deriving DecidableEq, Repr

/-- `enum libnvram_state`: the program compares it with `LIBNVRAM_STATE_ALL_VERIFIED` only. -/
inductive LibnvramState where
  | allVerified
  | other
  deriving DecidableEq, Repr

structure LibnvramSection where
  state : LibnvramState
  hdr : LibnvramHeader
  deriving DecidableEq, Repr

/-- The bits `LIBNVRAM_ACTIVE_A` and `LIBNVRAM_ACTIVE_B` of `enum libnvram_active`. -/
structure LibnvramActive where
  a : Bool
  b : Bool
  deriving DecidableEq, Repr

/-- `struct libnvram_transaction`. -/
structure LibnvramTransaction where
  active : LibnvramActive
  sectionA : LibnvramSection
  sectionB : LibnvramSection
  deriving DecidableEq, Repr

/-- The bits `LIBNVRAM_OPERATION_WRITE_A` and `LIBNVRAM_OPERATION_COUNTER_RESET` of
`enum libnvram_operation`. -/
structure LibnvramOperation where
  writeA : Bool
  counterReset : Bool
  deriving DecidableEq, Repr

/-- What `libnvram_serialize` leaves in a buffer of `size` bytes and in the header. -/
structure Serialized (size : UInt32) where
  bytes : Bytes
  fits : bytes.length ≤ size.toNat
  hdr : LibnvramHeader

theorem Serialized.nil_fits (size : UInt32) : ([] : Bytes).length ≤ size.toNat :=
  Nat.zero_le _

/-- The libnvram functions the program calls.  `listSet` and `deserialize` allocate; the
values here are their results when allocation succeeds. -/
structure Libnvram where
  headerLen : UInt32
  headerLen_pos : 0 < headerLen.toNat
  /-- `some` is a return value of 0, with the header filled in. -/
  validateHeader : Bytes → Option LibnvramHeader
  /-- What `initTransaction` records about one section's data. -/
  verifySection : Bytes → LibnvramSection
  initTransaction : Bytes → Bytes → LibnvramTransaction
  nextTransaction : LibnvramTransaction → LibnvramHeader → LibnvramOperation × LibnvramHeader
  updateTransaction :
    LibnvramTransaction → LibnvramOperation → LibnvramHeader → LibnvramTransaction
  serializeSize : List Entry → UInt32
  /-- An empty result is a return value of 0. -/
  serialize : List Entry → (size : UInt32) → LibnvramHeader → Serialized size
  deserialize : Bytes → LibnvramHeader → Except Errno (List Entry)
  listGet : List Entry → Bytes → Option Entry
  listSet : List Entry → Entry → List Entry
  /-- `some` is a return value of 1, with the list that is left. -/
  listRemove : List Entry → Bytes → Option (List Entry)

end Nvram
