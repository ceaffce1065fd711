import Remc.Lib.Runs
import Remc.Lib.Radix
import Remc.Lib.PolyMac
import Remc.Lib.ChaCha
import Remc.Lib.Rfc8439
import Remc.Lib.XorShift
import Remc.Lib.ExactWords
import Remc.Xoshiro256
import Remc.XoshiroSeed
import Remc.RingBuffer.Basic
import Remc.RingBuffer.Refinement
import Remc.RingBuffer.Store
import Remc.Crypto.ChaCha20
import Remc.Crypto.ChaCha20Block
import Remc.Crypto.ChaCha20Stream
import Remc.Crypto.Poly1305
import Remc.Crypto.Poly1305Exact
import Remc.Crypto.Poly1305Limbs
import Remc.Crypto.Poly1305Mac
import Remc.Crypto.Poly1305Runs
import Remc.Crypto.Aead
import Remc.Crypto.AeadCalls
import Remc.Crypto.ForwardSecure
import Remc.Crypto.RekeyNonces
import Remc.Net.Bitsery
import Remc.Net.Packet
import Remc.Net.Wire
import Remc.Net.RoundTrip
import Remc.Net.Hostile
import Remc.Net.Spelling
import Remc.Net.Acceptance
import Remc.Net.PayloadText
import Remc.Net.Session
import Remc.Net.WriteLoop
import Remc.Net.ReadLoop
import Remc.Net.InTurn
import Remc.Net.Framing
import Remc.Net.System
import Remc.Net.Nonces
import Remc.Net.NonceReuse
import Remc.Net.Counters
import Remc.Net.Handshake.Agreement
import Remc.Lib.Replies
import Remc.Lib.Ledger
import Remc.Lib.FlatHashMap
import Remc.Net.KeyLength
import Remc.Net.KeyUse
import Remc.Net.Replay
import Remc.Net.SendQueue
import Remc.Net.Callbacks
import Remc.Net.Answers
import Remc.Net.Draining
import Remc.Net.Forgery
import Remc.Net.Exchange
import Remc.Net.Called
import Remc.Net.Unanswered
import Remc.Net.ReadCallback
import Remc.Net.Worker
import Remc.Net.SessionTable
import Remc.Net.Heartbeat
import Remc.Net.Lifecycle
import Remc.Net.IdleSessions
import Remc.Net.Acceptor
import Remc.Net.Connections
import Remc.Net.ServerRun
import Remc.Net.SessionRuns
import Remc.Net.InTurn
