import Agentsmith.Lib.Runs
import Agentsmith.Records
import Agentsmith.RecordsMap
import Agentsmith.RecordsRefine
import Agentsmith.Daemon
import Agentsmith.PerAddress
import Agentsmith.ActionCalls
import Agentsmith.Occurrences
import Agentsmith.Bursts
import Agentsmith.Captures
import Agentsmith.RemoteReport
import Agentsmith.Lib.Words
import Agentsmith.NetShared
import Agentsmith.Exclude
import Agentsmith.Lib.PrefixBits
import Agentsmith.ExcludeCidr
import Agentsmith.Follow
import Agentsmith.Lib.Chunker
import Agentsmith.FollowAppend
import Agentsmith.FollowRotate
import Agentsmith.Stored
import Agentsmith.Intake
import Agentsmith.Whitelist
import Agentsmith.DoAction
import Agentsmith.Terminated
import Agentsmith.Shell
import Agentsmith.Client
import Agentsmith.Distribution
import Agentsmith.Informer
import Agentsmith.HonestReports
import Agentsmith.Lib.Networks
import Agentsmith.NoRelay
import Agentsmith.ExcludeReload
import Agentsmith.Purge
import Agentsmith.RemoteLifetime
import Agentsmith.Lib.Permits
import Agentsmith.ServerWorkers
import Agentsmith.Assertions
import Agentsmith.PurgeRequest
import Agentsmith.Maintenance
import Agentsmith.PeerControl
import Agentsmith.ExcludeSets
import Agentsmith.ExcludeFile
import Agentsmith.ExcludeGrammar
import Agentsmith.Config
import Agentsmith.ConfigRead
import Agentsmith.ConfigAddresses
import Agentsmith.ConfigRepeat
import Agentsmith.ConfigScalars
import Agentsmith.Lib.Loops
import Agentsmith.NetTransfer
import Agentsmith.ClientWorker
import Agentsmith.FollowLines
import Agentsmith.Listening
import Agentsmith.FollowErrors
import Agentsmith.ActionLaunch
import Agentsmith.Release
import Agentsmith.NetworkBlocks
import Agentsmith.Delivery
import Agentsmith.ExcludeReloads
import Agentsmith.Pipeline
import Agentsmith.FollowStop
import Agentsmith.Announced
import Agentsmith.Dissemination
import Agentsmith.Lib.Sections
import Agentsmith.RecordsLoops
import Agentsmith.ThreadsStop
import Agentsmith.ActionBalance
import Agentsmith.ExcludeRelease
import Agentsmith.ExcludeLoops
