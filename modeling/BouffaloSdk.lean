import BouffaloSdk.Kit.Circular
import BouffaloSdk.Kit.Word
import BouffaloSdk.Utils.RingBufferFifo
import BouffaloSdk.Lhal.BflbFlash
import BouffaloSdk.Partition.Tables
import BouffaloSdk.Mtd.BflbMtd
import BouffaloSdk.Ota.BflbOta
import BouffaloSdk.Partition.Slots
import BouffaloSdk.Ota.Bank
import BouffaloSdk.Ota.Updates
import BouffaloSdk.Ota.KeptUpdates
import BouffaloSdk.Ota.PowerLoss
import BouffaloSdk.Ota.Sessions
import BouffaloSdk.Kit.Linked
import BouffaloSdk.Utils.BflbBlockPool
import BouffaloSdk.Log.BflogFilter
import BouffaloSdk.Log.FilterRuns
import BouffaloSdk.Utils.BlockPoolRuns
import BouffaloSdk.Kit.Backlog
import BouffaloSdk.Log.BflogQueue
import BouffaloSdk.Log.QueueRuns
import BouffaloSdk.Romfs.BflbRomfs
import BouffaloSdk.Romfs.Layout
import BouffaloSdk.Romfs.Lookup
import BouffaloSdk.Romfs.Readdir
import BouffaloSdk.HostRouter.CtlPort
import BouffaloSdk.HostRouter.RnmClient
import BouffaloSdk.HostRouter.RnmClientRuns
import BouffaloSdk.HostRouter.Blctl
import BouffaloSdk.HostRouter.BlctlRuns
import BouffaloSdk.HostRouter.Tty
import BouffaloSdk.HostRouter.TtyCredit
import BouffaloSdk.HostRouter.RnmOta
import BouffaloSdk.HostRouter.RnmOtaRuns
import BouffaloSdk.HostRouter.RnmServer
import BouffaloSdk.HostRouter.RnmServerReplies
import BouffaloSdk.HostRouter.BlctlOta
import BouffaloSdk.HostRouter.BlctlOtaRuns
import BouffaloSdk.Multimedia.MRingBuffer
import BouffaloSdk.Multimedia.MRingBufferFifo
import BouffaloSdk.Coredump.EncoderV2
import BouffaloSdk.Kit.SRecord
import BouffaloSdk.Coredump.RoundTrip
import BouffaloSdk.Coredump.BinFmtV2
import BouffaloSdk.Coredump.ElfLayout
import BouffaloSdk.Coredump.ElfRuns
import BouffaloSdk.Coredump.ElfDump
import BouffaloSdk.Fs.Littlefs
import BouffaloSdk.Thread.OtSettingsLittlefs
import BouffaloSdk.Thread.SettingsLittlefsRuns
import BouffaloSdk.Fs.LfsEasyflash
import BouffaloSdk.Fs.EasyflashRuns
import BouffaloSdk.Fs.EasyflashMounted
import BouffaloSdk.Kit.Bitmap
import BouffaloSdk.Thread.OtSettingsEasyflash
import BouffaloSdk.Thread.SettingsEasyflashRuns
import BouffaloSdk.Lhal.BflbSecSha
import BouffaloSdk.Kit.DescRing
import BouffaloSdk.Kit.Dlist
import BouffaloSdk.Lhal.ShaStreams
import BouffaloSdk.Thread.OtRadio
import BouffaloSdk.Thread.OtRadioBuffers
import BouffaloSdk.Ota.Assembly
import BouffaloSdk.Partition.WrittenTables
import BouffaloSdk.Ota.Truth
import BouffaloSdk.HostRouter.RnmOtaReads
import BouffaloSdk.Crypto.AesModes
import BouffaloSdk.Crypto.AesAlt
import BouffaloSdk.Crypto.AesStreams
import BouffaloSdk.Kit.Ranked
import BouffaloSdk.Multimedia.SmartAudio
import BouffaloSdk.Multimedia.SmartAudioRuns
import BouffaloSdk.Lhal.BflbEmac
import BouffaloSdk.Lhal.EmacRings
import BouffaloSdk.EthPhy.EmacBuffers
import BouffaloSdk.Kit.Montgomery
import BouffaloSdk.Kit.WordMemory
import BouffaloSdk.Lhal.BflbSecPka
import BouffaloSdk.Crypto.Bignum
import BouffaloSdk.Crypto.BignumAlt
import BouffaloSdk.Crypto.ExpModRuns
import BouffaloSdk.Crypto.PkaPrograms
import BouffaloSdk.Kit.ShortWeierstrass
import BouffaloSdk.Crypto.ScalarEncode
import BouffaloSdk.Multimedia.MRingBufferMoves
import BouffaloSdk.Utils.BlockPoolGeometry
import BouffaloSdk.Romfs.FileAccess
import BouffaloSdk.HostRouter.RnmOtaReleases
import BouffaloSdk.Log.FileRotate
import BouffaloSdk.Log.RecordText
import BouffaloSdk.Romfs.PathChecks
import BouffaloSdk.Kit.LockedCalls
import BouffaloSdk.Log.BflogApi
import BouffaloSdk.Log.LockBalance
import BouffaloSdk.HostRouter.SdiowifiTxBuf
import BouffaloSdk.HostRouter.TxBufAccounts
import BouffaloSdk.HostRouter.SdioMsgHandlers
import BouffaloSdk.HostRouter.ReceiveSafety
import BouffaloSdk.Crypto.EcpAlt
import BouffaloSdk.Crypto.EcpRegisters
import BouffaloSdk.Crypto.EcpTables
import BouffaloSdk.Crypto.EcpDigits
import BouffaloSdk.Crypto.EcpMultiples
import BouffaloSdk.Crypto.EcpRuns
import BouffaloSdk.Lhal.BflbDma
import BouffaloSdk.Lhal.DmaChains
import BouffaloSdk.Lhal.RxCycleDma
import BouffaloSdk.Lhal.BflbEfCtrl
import BouffaloSdk.Lhal.EfuseDirect
import BouffaloSdk.Lhal.EfuseTrim
import BouffaloSdk.Lhal.AntiRollback
import BouffaloSdk.Kit.Calendar
import BouffaloSdk.Utils.Timestamp
import BouffaloSdk.Lhal.BflbSflash
import BouffaloSdk.Lhal.TwoFlash
import BouffaloSdk.Ble.OadMain
import BouffaloSdk.Ble.OadRuns
import BouffaloSdk.Rfparam.RfTlv
import BouffaloSdk.Kit.Packed
import BouffaloSdk.Lhal.BflbIr
import BouffaloSdk.Crypto.ScalarDigits
import BouffaloSdk.Crypto.HenselCalls
import BouffaloSdk.Lhal.BflbRtc
import BouffaloSdk.Sys.Bl616Lp
import BouffaloSdk.Ble.HciUart
import BouffaloSdk.Kit.Scanner
import BouffaloSdk.Ble.HciUartLp
import BouffaloSdk.Lhal.SflashTransfer
import BouffaloSdk.Matter.Mfd
import BouffaloSdk.Matter.MfdSafety
import BouffaloSdk.HostRouter.TrcverSdio
import BouffaloSdk.HostRouter.TrcverSdioRuns
import BouffaloSdk.Utils.UtilsList
import BouffaloSdk.Utils.UtilsListRefinement
import BouffaloSdk.Multimedia.SmartAudioLocks
import BouffaloSdk.Sys.VirtualTime
import BouffaloSdk.Thread.OtAlarm
import BouffaloSdk.Kit.Search
import BouffaloSdk.Thread.OtHttpd
import BouffaloSdk.Thread.OtHttpdRequests
import BouffaloSdk.Thread.OtHttpdRuns
import BouffaloSdk.Kit.Signed
import BouffaloSdk.Sys.BeaconSleep
import BouffaloSdk.Kit.BitSet
import BouffaloSdk.Kit.FreeList
import BouffaloSdk.Kit.Tagged
import BouffaloSdk.Kit.Tiling
import BouffaloSdk.Mm.Tlsf
import BouffaloSdk.Mm.TlsfCalls
import BouffaloSdk.Mm.TlsfChain
import BouffaloSdk.Mm.TlsfClasses
import BouffaloSdk.Mm.TlsfEdits
import BouffaloSdk.Mm.TlsfLists
import BouffaloSdk.Mm.TlsfOps
import BouffaloSdk.Mm.TlsfPool
import BouffaloSdk.Mm.TlsfRuns
