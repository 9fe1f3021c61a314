import SatDeploy.Lib.Bytes
import SatDeploy.Lib.Sha256
import SatDeploy.Lib.Splice
import SatDeploy.Lib.Spans
import SatDeploy.Lib.Runs
import SatDeploy.Svu.Core
import SatDeploy.Svu.Verdict
import SatDeploy.Svu.Proto
import SatDeploy.Svu.RequestCodec
import SatDeploy.Svu.Serve
import SatDeploy.Svu.Session
import SatDeploy.Svu.Completion
import SatDeploy.Svu.Recovery
import SatDeploy.Svu.Reassembly
import SatDeploy.Svu.DamageReport
import SatDeploy.Svu.HookTrace
import SatDeploy.Svu.HonestLink
import SatDeploy.Svu.Manifest
import SatDeploy.Svu.ManifestTrust
import SatDeploy.Svu.Tiling
import SatDeploy.Svu.Budget
import SatDeploy.Svu.ClosedLoop
import SatDeploy.Lib.Crash
import SatDeploy.Lib.Distinct
import SatDeploy.Lib.Wire
import SatDeploy.Lib.Loop
import SatDeploy.Lib.Bitmap
import SatDeploy.Lib.Blocks
import SatDeploy.Lib.ExchangeSort
import SatDeploy.Lib.Recency
import SatDeploy.Lib.Transducer
import SatDeploy.Lib.Replay
import SatDeploy.Agent.Files
import SatDeploy.Agent.BackupManager
import SatDeploy.Agent.AppMetadata
import SatDeploy.Agent.MetadataText
import SatDeploy.Agent.SvuTransfer
import SatDeploy.Agent.DeployHandler
import SatDeploy.Agent.InstallIntegrity
import SatDeploy.Agent.InstallAtomicity
import SatDeploy.Agent.RollbackDial
import SatDeploy.Agent.CopyInstall
import SatDeploy.Agent.ListVersions
import SatDeploy.Agent.Connection
import SatDeploy.Agent.BackupHistory
import SatDeploy.Agent.Reliable
import SatDeploy.Agent.MetadataStore
import SatDeploy.Agent.MetadataMap
import SatDeploy.Agent.MetadataParser
import SatDeploy.Agent.Archive
import SatDeploy.Agent.Filing
import SatDeploy.Agent.VersionHistory
import SatDeploy.Agent.VersionList
import SatDeploy.Agent.UploadSession
import SatDeploy.Agent.SessionState
import SatDeploy.Agent.DialCycle
import SatDeploy.Agent.DialUndo
import SatDeploy.Agent.DtpClient
import SatDeploy.Agent.SidecarNames
import SatDeploy.Agent.LossFilter
import SatDeploy.Agent.SidecarDisk
import SatDeploy.Agent.Resume
import SatDeploy.Agent.HonestResume
import SatDeploy.Agent.Delivery
import SatDeploy.Agent.Serving
import SatDeploy.Agent.Lifetime
import SatDeploy.Ground.Apm
import SatDeploy.Ground.RollbackIsolation
import SatDeploy.Ground.PushIntegrity
import SatDeploy.Ground.Checksums
import SatDeploy.Ground.ReorderArgv
import SatDeploy.Ground.PushDelivers
import SatDeploy.Ground.Ledger
import SatDeploy.Experiments.Impair
import SatDeploy.Experiments.Patterns
import SatDeploy.Experiments.PassReplay
