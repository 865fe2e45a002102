import QuantumFs.Store.TreeRun
import QuantumFs.Store.Migration
import QuantumFs.Store.Handles
import QuantumFs.Host.Versions
import QuantumFs.Member.Denials
import QuantumFs.Encoding.Signed
import QuantumFs.Encoding.Snapshot
import QuantumFs.Net.Drain
import QuantumFs.Net.Live
import QuantumFs.Net.DirectoryFile
import QuantumFs.Net.Convergence
import QuantumFs.Crypto.Retries
import QuantumFs.Crypto.Candidates
import QuantumFs.Net.AdminText
import QuantumFs.Client.Status
import QuantumFs.Client.Hidden
import QuantumFs.Client.LocalEdits
import QuantumFs.Client.Revocation
import QuantumFs.Client.Converged
import QuantumFs.Client.SettingsKept
import QuantumFs.Crypto.WindowModel
import QuantumFs.Member.Pull
import QuantumFs.Client.StorableNames
import QuantumFs.Client.History
import QuantumFs.Client.TrailKept
import QuantumFs.Client.Fuzzy
import QuantumFs.Client.FreeNames
import QuantumFs.Net.Profiles
import QuantumFs.Client.Search
import QuantumFs.Client.WireTree
import QuantumFs.Client.Alone
import QuantumFs.Client.Selection
import QuantumFs.Client.Deletion
import QuantumFs.Client.Moving
import QuantumFs.Client.Downloads
import QuantumFs.Client.Capacity
import QuantumFs.Client.Query
import QuantumFs.Host.RecentOps
import QuantumFs.Client.Copying
import QuantumFs.Client.Duplicate
import QuantumFs.Encoding.Handshake
import QuantumFs.Net.Frames
import QuantumFs.Net.Uploads
import QuantumFs.Net.Agreement
import QuantumFs.Host.Requeue
import QuantumFs.Host.Bootstrap
import QuantumFs.Host.Mirror
import QuantumFs.Member.Bootstrap
