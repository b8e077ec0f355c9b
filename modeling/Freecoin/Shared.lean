import Freecoin.Lib.ByteOrder

/-!
# shared.h: sizes, positions and codes

The constants that the modelled functions read. Two names used by the source
are missing from the header: `POS_BLOCK_BODY` (the header's own note says to
read it as `SIZE_BLOCK_HEADER`) and `BLOCK_HEADER_SIZE` (the same constant
under another spelling).
-/

namespace Freecoin

export Lib (Bytes Mem ByteOrder)

/-- `__VERSION`. -/
@[simp] def clientVersion : UInt16 := 1

@[simp] def sizeSha256 : ℕ := 32

/-! ## Transactions -/

@[simp] def maxTxSize : ℕ := 1048576
@[simp] def txCountSoftLimit : ℕ := 500
@[simp] def sizeTxHeader : ℕ := 10
@[simp] def sizeTxInput : ℕ := 290
@[simp] def sizeTxOutput : ℕ := 36
@[simp] def posTxVersion : ℕ := 0
@[simp] def posTxInCount : ℕ := 2
@[simp] def posTxOutCount : ℕ := 4
@[simp] def posTxLockTime : ℕ := 6
@[simp] def posTxBody : ℕ := 10
@[simp] def posTxInputRefTx : ℕ := 0
@[simp] def posTxInputOutIndex : ℕ := 32
@[simp] def posTxInputPubkey : ℕ := 34
@[simp] def posTxInputSig : ℕ := 162
@[simp] def sizeTxInputRefTx : ℕ := 32
@[simp] def sizeTxInputPubkey : ℕ := 128
@[simp] def sizeTxInputSig : ℕ := 128
@[simp] def posTxOutAddress : ℕ := 0
@[simp] def posTxOutAmount : ℕ := 32
@[simp] def sizeTxOutAddress : ℕ := 32

/-! ## Blocks -/

@[simp] def maxBlockSize : ℕ := 1048576
@[simp] def sizeBlockHeader : ℕ := 83
@[simp] def posBlockVersion : ℕ := 0
@[simp] def posBlockTime : ℕ := 2
@[simp] def posBlockHeight : ℕ := 6
@[simp] def posBlockPrevHash : ℕ := 10
@[simp] def posBlockMerkleRoot : ℕ := 42
@[simp] def posBlockTarget : ℕ := 74
@[simp] def posBlockNonce : ℕ := 75
@[simp] def posBlockTxCount : ℕ := 79
@[simp] def posBlockBody : ℕ := sizeBlockHeader
@[simp] def reasonableConfirmations : UInt32 := 6

/-! ## Messages -/

@[simp] def maxMsgSize : ℕ := 2097152

@[simp] def ctypeReject : UInt8 := 0
@[simp] def ctypeGetblocks : UInt8 := 1
@[simp] def ctypeMempool : UInt8 := 2
@[simp] def ctypeInv : UInt8 := 3
@[simp] def ctypeGetdata : UInt8 := 4
@[simp] def ctypeBlock : UInt8 := 5
@[simp] def ctypeTx : UInt8 := 6
@[simp] def ctypePeer : UInt8 := 7
@[simp] def ctypeAlert : UInt8 := 8
@[simp] def ctypePing : UInt8 := 9
@[simp] def ctypePong : UInt8 := 10

@[simp] def dtypeBlock : UInt8 := 0
@[simp] def dtypeTx : UInt8 := 1
@[simp] def dtypeNode : UInt8 := 2

@[simp] def errBadVersion : UInt8 := 1

@[simp] def posMsgVersion : ℕ := 0
@[simp] def posMsgCtype : ℕ := 2

@[simp] def ctypeRejectPosErrortype : ℕ := 0
@[simp] def ctypeRejectPosInfoSize : ℕ := 1
@[simp] def ctypeGetblocksPosStartBlock : ℕ := 0
@[simp] def ctypeGetblocksPosBlockCount : ℕ := 32
@[simp] def ctypeInvPosDatatype : ℕ := 0
@[simp] def ctypeInvPosIdsCount : ℕ := 1
@[simp] def ctypeInvPosIds : ℕ := 2
@[simp] def ctypeGetdataPosDatatype : ℕ := 0
@[simp] def ctypeGetdataPosIdsCount : ℕ := 1
@[simp] def ctypeGetdataPosIds : ℕ := 2
@[simp] def ctypeBlockPosSize : ℕ := 0
@[simp] def ctypeBlockPosBlock : ℕ := 4
@[simp] def ctypeTxPosSize : ℕ := 0
@[simp] def ctypeTxPosTx : ℕ := 4
@[simp] def ctypePeerPosPort : ℕ := 0
@[simp] def ctypePeerPosAddrLen : ℕ := 2
@[simp] def ctypePeerPosAddr : ℕ := 4

/-! ## How a run can stop short -/

/-- A run of the program ends early in one of three ways. -/
inductive Fault : Type where
  /-- `fatal(...)`: the process prints the text and exits. -/
  | fatal (text : String)
  /-- A null or never-initialised pointer is dereferenced. -/
  | badPointer
  /-- The fuel given to a `while (1)` is used up: the loop is still running. -/
  | outOfFuel
deriving DecidableEq

/-- A computation with values of type `int` leaves its range; what follows has no meaning. -/
inductive IntOverflow : Type where
  | position
deriving DecidableEq

end Freecoin
