import TFProtocol.Lib.Mealy
import TFProtocol.Lib.Runs
import TFProtocol.Lib.Residue
import TFProtocol.Lib.Bytes
import TFProtocol.Lib.Base64
import TFProtocol.Lib.CStr
import TFProtocol.Lib.TextLines
import TFProtocol.Lib.LexPath
import TFProtocol.Lib.FirstMatch
import TFProtocol.Lib.Inodes
import TFProtocol.Lib.InodeTrees
import TFProtocol.Lib.InodeGrowth
import TFProtocol.Lib.Dll
import TFProtocol.Lib.RecordLocks
import TFProtocol.Lib.Blocks
import TFProtocol.Lib.CMacro
import TFProtocol.Lib.Programs
import TFProtocol.Crypto
import TFProtocol.BlkCipher
import TFProtocol.Session
import TFProtocol.RoundTrip
import TFProtocol.Goaes
import TFProtocol.Cia
import TFProtocol.CipherModes
import TFProtocol.Jail
import TFProtocol.SecfsFlags
import TFProtocol.Roots
import TFProtocol.PathHandlers
import TFProtocol.Ime
import TFProtocol.ImePackets
import TFProtocol.ImeMailbox
import TFProtocol.Mediation
import TFProtocol.Login
import TFProtocol.Config
import TFProtocol.SecureFs
import TFProtocol.TreeFs
import TFProtocol.NtfyList
import TFProtocol.CoreCmds
import TFProtocol.CoreFrames
import TFProtocol.SecfsRuns
import TFProtocol.DirLock
import TFProtocol.Listing
import TFProtocol.ListingBack
import TFProtocol.Server
import TFProtocol.Gates
import TFProtocol.PreAuth
import TFProtocol.StaleBuffer
import TFProtocol.Fai
import TFProtocol.FaiKeys
import TFProtocol.FailedReply
import TFProtocol.NetMutex
import TFProtocol.HpfCodes
import TFProtocol.StreamCan
import TFProtocol.Streams
import TFProtocol.IntFile
import TFProtocol.NetLock
import TFProtocol.SqlTable
import TFProtocol.SqlFrames
import TFProtocol.SqlSession
import TFProtocol.XsNtmex
import TFProtocol.BlkBounds
import TFProtocol.PlainIo
import TFProtocol.Lengths
import TFProtocol.Sup
import TFProtocol.HpfFrames
import TFProtocol.PutCan
import TFProtocol.Uploads
import TFProtocol.BulkBounds
import TFProtocol.XsAce
import TFProtocol.AccessKeys
import TFProtocol.AceAcl
import TFProtocol.Dispatch
import TFProtocol.Patterns
import TFProtocol.PathChecks
import TFProtocol.TreeRemove
import TFProtocol.TreeCopy
import TFProtocol.DirWalk
import TFProtocol.MetaFiles
import TFProtocol.PathBounds
import TFProtocol.FaiFiles
import TFProtocol.Watchdog
import TFProtocol.CancelThread
import TFProtocol.Tlb
import TFProtocol.OkReplies
import TFProtocol.Xs1
import TFProtocol.Xs1Write
import TFProtocol.Discard
import TFProtocol.Keystream
import TFProtocol.Reseed
import TFProtocol.KeyBuffers
import TFProtocol.Mempool
import TFProtocol.PoolWalks
import TFProtocol.Gateway
import TFProtocol.GatewayEnd
import TFProtocol.Handshake
import TFProtocol.Ntfy
import TFProtocol.NtfyDrain
import TFProtocol.ImeEnd
import TFProtocol.Transfer
