import BatchDualEx.Circuit.HalfGtCorrect
import BatchDualEx.DualEx.CutAndChoose
import BatchDualEx.DualEx.Messages
import BatchDualEx.DualEx.BucketLabels
import BatchDualEx.DualEx.EvalThreads
import BatchDualEx.DualEx.OutputPromise
import BatchDualEx.Circuit.BrisNetlist
import BatchDualEx.Circuit.ReadBris
import BatchDualEx.Circuit.BrisChecks
import BatchDualEx.Circuit.WriteBris
import BatchDualEx.Circuit.AddGate
import BatchDualEx.Circuit.ClassicGarbled
import BatchDualEx.Circuit.XorShare
import BatchDualEx.Common.BitVectorOps
import BatchDualEx.Common.BitVectorMemory
import BatchDualEx.Common.ByteStreamQueue
import BatchDualEx.Common.BitVectorStream
import BatchDualEx.Circuit.KProbeBuild
import BatchDualEx.Circuit.KProbeEncode
import BatchDualEx.Circuit.KProbeDecode
import BatchDualEx.Circuit.EvaluateBits
import BatchDualEx.Circuit.KProbeFile
import BatchDualEx.Circuit.HalfGtValidate
import BatchDualEx.Circuit.HalfGtTransfer
import BatchDualEx.Network.RefusedReceive
import BatchDualEx.Network.BtAcceptor
import BatchDualEx.Crypto.AESBlocks
import BatchDualEx.Crypto.PRNGMembers
import BatchDualEx.PSI.PsiPadding
import BatchDualEx.PSI.PsiFalseOpening
import BatchDualEx.DualEx.CommonOutput
import BatchDualEx.DualEx.InputConsistency
import BatchDualEx.DualEx.ChoicePrivacy
import BatchDualEx.DualEx.BucketLoops
import BatchDualEx.PSI.AsyncPsiOpen
import BatchDualEx.OT.BaseOTCorrect
import BatchDualEx.OT.BaseOTUnpack
import BatchDualEx.OT.OTExtCorrect
import BatchDualEx.OT.OTExtProgress
import BatchDualEx.DualEx.Tweaks
import BatchDualEx.DualEx.TranslationCheck
import BatchDualEx.DualEx.IndexArray
import BatchDualEx.DualEx.KProbeInputs
import BatchDualEx.DualEx.PsiSlots
import BatchDualEx.DualEx.OnlineOrder
import BatchDualEx.DualEx.OnlineProgress
import BatchDualEx.DualEx.HonestExecution
import BatchDualEx.Lib.ThreadsProgress
import BatchDualEx.OT.CorrelationCheck
import BatchDualEx.OT.GfMul128
import BatchDualEx.Circuit.KProbePrivacy
import BatchDualEx.OT.BaseOTPrivacy
import BatchDualEx.DualEx.OpenedChance
import BatchDualEx.DualEx.HonestOutputs
