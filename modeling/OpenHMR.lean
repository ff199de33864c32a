import OpenHMR.Dyadic
import OpenHMR.MaximalBlocks
import OpenHMR.BuddyStore
import OpenHMR.MmZone
import OpenHMR.DvrBlueprint
import OpenHMR.DvrRuns
import OpenHMR.DvrBounds
import OpenHMR.PageAlloc
import OpenHMR.DvrSystem
import OpenHMR.DvrAgreement
import OpenHMR.RemapTable
import OpenHMR.NandTable
import OpenHMR.NandForm
import OpenHMR.NandFlash
import OpenHMR.NandDevice
import OpenHMR.BoundedLoop
import OpenHMR.Buffer
import OpenHMR.NandBase
import OpenHMR.NandFrame
import OpenHMR.NandData
import OpenHMR.NandCalls
import OpenHMR.FlagWords
import OpenHMR.NandFlags
import OpenHMR.NandFlagFrame
import OpenHMR.NandCache
import OpenHMR.NandDies
import OpenHMR.NandScan
import OpenHMR.NandPersist
import OpenHMR.NandRounds
import OpenHMR.NandFormRuns
import OpenHMR.NandSound
import OpenHMR.NandWriteFailure
import OpenHMR.NandLastDie
import OpenHMR.NandUnique
import OpenHMR.AppendLog
import OpenHMR.NandErase
import OpenHMR.Circular
import OpenHMR.RpcRing
import OpenHMR.RpcFifo
import OpenHMR.RadixTree
import OpenHMR.Ledger
import OpenHMR.AuthRecords
import OpenHMR.Halving
import OpenHMR.AuthOwnership
import OpenHMR.AuthCalls
import OpenHMR.AuthRuns
import OpenHMR.AuthOrder
import OpenHMR.AuthReleases
import OpenHMR.Limbs
import OpenHMR.BigInt
import OpenHMR.BigIntArith
import OpenHMR.BigIntExp
import OpenHMR.RsaVerify
import OpenHMR.Memory
import OpenHMR.Blocks
import OpenHMR.McpBuff
import OpenHMR.McpEngine
import OpenHMR.McpDigest
import OpenHMR.McpCipher
import OpenHMR.McpCipherDev
import OpenHMR.RpcCapacity
import OpenHMR.Reorder
import OpenHMR.RxReorder
import OpenHMR.RxReorderRuns
import OpenHMR.RxReorderTimer
import OpenHMR.Runs
import OpenHMR.CecMars
import OpenHMR.CecReceive
import OpenHMR.CecTransmit
import OpenHMR.Atr
import OpenHMR.AtrFraming
import OpenHMR.Overlay
import OpenHMR.Efuse
import OpenHMR.EfuseLog
import OpenHMR.EfuseWrites
import OpenHMR.EfuseUpdate
import OpenHMR.TwoWire
import OpenHMR.VenusG2c
import OpenHMR.VenusG2cRun
import OpenHMR.VenusG2cTransfer
import OpenHMR.VenusI2cIrq
import OpenHMR.I2cMessages
import OpenHMR.BigIntBounds
import OpenHMR.BigIntDiv
import OpenHMR.MdEngine
import OpenHMR.CommandRing
import OpenHMR.MdRing
import OpenHMR.MdCopy
import OpenHMR.MdTasks
import OpenHMR.MdThreads
import OpenHMR.MdLifetime
import OpenHMR.MdMemcpy
import OpenHMR.SerialFlash
import OpenHMR.VenusSfcErase
import OpenHMR.VenusSfcWrite
import OpenHMR.SeRing
import OpenHMR.SeOverrun
import OpenHMR.SeAppend
import OpenHMR.SeVsync
import OpenHMR.SeSafety
import OpenHMR.I2cSlave
import OpenHMR.VenusI2cFifo
import OpenHMR.VenusI2cSplit
import OpenHMR.EfuseReaders
import OpenHMR.AtrLeftover
import OpenHMR.MdCommands
import OpenHMR.BigIntSigned
