import Aevros.Guarantees.Accepts
import Aevros.Guarantees.Accounts
import Aevros.Guarantees.Blast
import Aevros.Guarantees.ByteArrays
import Aevros.Guarantees.Checksum
import Aevros.Guarantees.Cookies
import Aevros.Guarantees.Datagrams
import Aevros.Guarantees.Delivery
import Aevros.Guarantees.Denials
import Aevros.Guarantees.Directories
import Aevros.Guarantees.Driver
import Aevros.Guarantees.ExitWait
import Aevros.Guarantees.FailedSend
import Aevros.Guarantees.Floods
import Aevros.Guarantees.Forks
import Aevros.Guarantees.GiveUp
import Aevros.Guarantees.HeldFrames
import Aevros.Guarantees.Hosts
import Aevros.Guarantees.Images
import Aevros.Guarantees.Inboxes
import Aevros.Guarantees.Inodes
import Aevros.Guarantees.Isolation
import Aevros.Guarantees.Leases
import Aevros.Guarantees.Lineage
import Aevros.Guarantees.Names
import Aevros.Guarantees.OpenFiles
import Aevros.Guarantees.OwnPackets
import Aevros.Guarantees.Pairing
import Aevros.Guarantees.Parents
import Aevros.Guarantees.Permits
import Aevros.Guarantees.Quarantine
import Aevros.Guarantees.ReadyRing
import Aevros.Guarantees.Records
import Aevros.Guarantees.Regions
import Aevros.Guarantees.Resolution
import Aevros.Guarantees.Retransmission
import Aevros.Guarantees.Routing
import Aevros.Guarantees.Rules
import Aevros.Guarantees.Scans
import Aevros.Guarantees.Shift
import Aevros.Guarantees.Sizes
import Aevros.Guarantees.Tilings
import Aevros.Guarantees.Timers
import Aevros.Services.Landlord6
import Aevros.Six.Compass
