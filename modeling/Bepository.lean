import Bepository.Session
import Bepository.Storage.Deletions
import Bepository.Sync.Requests
import Bepository.Sync.Superseded
import Bepository.Sync.Channel
import Bepository.Storage.Integrity
import Bepository.Bep.Registry
import Bepository.Sync.Announce
import Bepository.Sync.Cursor
import Bepository.Storage.Codec
import Bepository.Storage.FsckSequences
import Bepository.Storage.ConflictCopy
import Bepository.Storage.Winner
import Bepository.Storage.Dedup
import Bepository.Sync.ClusterConfig
import Bepository.Storage.FolderRegistry
import Bepository.Storage.Serving
import Bepository.Storage.Scheduler
import Bepository.Released
import Bepository.Dav.File
import Bepository.Bep.DeviceId
import Bepository.Storage.StoreSlot
import Bepository.Cli.CredentialWiring
import Bepository.EpochNames
import Bepository.Lock.Lease
