import Hearth.Audit.Tamper
import Hearth.Cluster.CounterValues
import Hearth.Cluster.Snapshot
import Hearth.Identity.AdvisoryLock
import Hearth.Identity.AatRuns
import Hearth.Identity.Blocklist
import Hearth.Identity.ControlReflects
import Hearth.Identity.Delegation
import Hearth.Identity.DeviceFlow
import Hearth.Identity.ExternalIdentity
import Hearth.Identity.GrantFamily
import Hearth.Identity.Invitations
import Hearth.Identity.OwedBumps
import Hearth.Identity.PasswordLinks
import Hearth.Identity.RequiredUpdate
import Hearth.Identity.SessionImmediate
import Hearth.Identity.SessionVersion
import Hearth.Identity.Unlocked
import Hearth.Identity.VerifiedEmail
import Hearth.Protocol.ClientInfo
import Hearth.Protocol.RoleCeiling
import Hearth.Rbac.Purge
import Hearth.Rbac.ResolutionCache
import Hearth.Rbac.Runs
import Hearth.Rbac.Scopes
import Hearth.Storage.Increments
import Hearth.Storage.KeyRegistry
import Hearth.Storage.Recovered
import Hearth.Wal.Damage
import Hearth.Wal.GroupProgress
import Hearth.Wal.Reopen
import Hearth.Wal.Nonce
