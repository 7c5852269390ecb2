import MinervaOS.Fat32.Access
import MinervaOS.Fat32.Clusters
import MinervaOS.Fat32.Lookup
import MinervaOS.Fat32.Updates
import MinervaOS.Fat32.Calls
import MinervaOS.Fat32.Writes
import MinervaOS.Fat32.Listing
import MinervaOS.Fat32.Append
import MinervaOS.Fat32.Runs
import MinervaOS.Fat32.Refusals
import MinervaOS.Fat32.Reading
import MinervaOS.Fat32.Files
import MinervaOS.Fat32.Refinement
import MinervaOS.Fat32.WriteModes
import MinervaOS.Scheduler.Tasks
import MinervaOS.Scheduler.Contexts
import MinervaOS.Scheduler.Resumptions
import MinervaOS.Scheduler.Interleavings
import MinervaOS.Net.Tcp
import MinervaOS.Crypto.P256
import MinervaOS.Crypto.FieldLimbs
import MinervaOS.Crypto.PointLimbs
import MinervaOS.Crypto.P256Field
import MinervaOS.Crypto.P256Points
import MinervaOS.Crypto.Multiplications
import MinervaOS.Crypto.P256Curve
import MinervaOS.Lib.Jacobian
import MinervaOS.Lib.GroupLaw
import MinervaOS.Crypto.Sha256
import MinervaOS.Crypto.Aes
import MinervaOS.Crypto.Hmac
import MinervaOS.Net.Http
import MinervaOS.Tls.Der
import MinervaOS.Tls.X509
import MinervaOS.Tls.Handshake
import MinervaOS.Tls.Ecdsa
import MinervaOS.Tls.DerBounds
import MinervaOS.Tls.ExtensionBounds
import MinervaOS.Tls.CertificateBounds
import MinervaOS.Tls.InBounds
import MinervaOS.Tls.HostMatch
import MinervaOS.Heap.Allocator
import MinervaOS.Heap.Blocks
import MinervaOS.Heap.Loops
import MinervaOS.Heap.Runs
import MinervaOS.Fat32.Lengths
import MinervaOS.Fat32.Returning
import MinervaOS.Fat32.Containment
import MinervaOS.Terminal.Additions
import MinervaOS.Desktop.Pointers
import MinervaOS.Lib.Wire
import MinervaOS.Net.Dns
import MinervaOS.Net.Query
import MinervaOS.Browser.Links
import MinervaOS.Fat32.Aliases
import MinervaOS.Lib.Ip
import MinervaOS.Lib.Layout
import MinervaOS.Net.Connect
import MinervaOS.Net.Delivery
import MinervaOS.Tls.ClientHello
import MinervaOS.Crypto.Residues
import MinervaOS.Crypto.InPlace
import MinervaOS.Crypto.PointsInPlace
import MinervaOS.Memory.Pmm
import MinervaOS.Memory.Paging
import MinervaOS.Lib.Sha2
import MinervaOS.Crypto.Sha256Buffer
import MinervaOS.Crypto.Sha256Standard
import MinervaOS.Lib.KeyedHash
import MinervaOS.Crypto.Prf
import MinervaOS.Crypto.GcmLoops
import MinervaOS.Lib.BinaryField
import MinervaOS.Lib.Rijndael
import MinervaOS.Crypto.AesInPlace
import MinervaOS.Crypto.AesStandard
import MinervaOS.Lib.Der
import MinervaOS.Tls.Signatures
import MinervaOS.Apps.Reopening
import MinervaOS.Apps.ImageViewer
import MinervaOS.Apps.AudioPlayer
import MinervaOS.Desktop.Order
import MinervaOS.Desktop.Highlight
import MinervaOS.Terminal.Removals
import MinervaOS.Browser.Rendering
import MinervaOS.Lib.References
import MinervaOS.Browser.Fallback
import MinervaOS.Terminal.Pages
import MinervaOS.Crypto.Ghash
import MinervaOS.Graphics.Lines
import MinervaOS.Graphics.FrameBuffer
import MinervaOS.Terminal.Echo
import MinervaOS.Lib.Thread
import MinervaOS.Devices.ReceiveRing
import MinervaOS.Devices.TransmitRing
import MinervaOS.Browser.LinkClicks
import MinervaOS.Lib.Layers
import MinervaOS.Desktop.Places
import MinervaOS.Desktop.Painting
import MinervaOS.Desktop.Drawn
import MinervaOS.Desktop.Visible
import MinervaOS.Fat32.Image
import MinervaOS.Fat32.ImageFiles
import MinervaOS.Lib.Scalars
import MinervaOS.Tls.Signing
import MinervaOS.Tls.Records
import MinervaOS.Lib.Framing
import MinervaOS.Tls.WholeRecords
import MinervaOS.Tls.AppData
import MinervaOS.Tls.Session
import MinervaOS.Tls.Peer
import MinervaOS.Lib.Frobenius
import MinervaOS.Crypto.Authentication
import MinervaOS.Tls.Exchange
import MinervaOS.Tls.Authentic
import MinervaOS.Tls.LaterOffer
import MinervaOS.Tls.Repeated
import MinervaOS.Lib.Fifo
import MinervaOS.Devices.Keyboard
import MinervaOS.Devices.Clock
import MinervaOS.Devices.Mouse
import MinervaOS.Devices.Ata
import MinervaOS.Devices.AtaPrograms
import MinervaOS.Memory.UserPages
