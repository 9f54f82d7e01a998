import BatchDualEx.Common.BitVector

/- `I_OTExtReceiver` and `I_OTExtSender`: what the users of the OT extension read of it. -/
namespace BatchDualEx

structure I_OTExtReceiver where
  mChoiceBits : BitVector
  GetMessage : Nat → Block

structure I_OTExtSender where
  GetMessage : Nat → Bool → Block

/-- The receiver holds the message of its choice for every index below `count`. -/
structure OTsCorrect (count : Nat) (recv : I_OTExtReceiver) (send : I_OTExtSender) : Prop where
  enough : count ≤ recv.mChoiceBits.size
  chosen : ∀ i < count, recv.GetMessage i = send.GetMessage i (recv.mChoiceBits.get i)

end BatchDualEx
