import SharpGit.Plumbing.DiffEnumerator
import SharpGit.Implementation.GitPool
import SharpGit.GitClient.GitStatusEventArgs
import SharpGit.GitClient.GitDelete
import SharpGit.Plumbing.GitObject
import SharpGit.GitClient.GitUnstage
import SharpGit.GitClient.StageUnstage
import SharpGit.GitClient.GitStatus
import SharpGit.GitClient.GitCommitCmd
import SharpGit.Implementation.GitBase
import SharpGit.Library.Strategy
import SharpGit.Plumbing.GitRemote
import SharpGit.GitClient.GitClient
import SharpGit.GitClient.CredentialOrder
import SharpGit.GitClient.GitTools
import SharpGit.GitClient.NormalizedPath
import SharpGit.GitClient.NormalizeFullPath
import SharpGit.Library.Enumerator
import SharpGit.Plumbing.GitTreeDescendants
import SharpGit.Plumbing.GitTreeLookup
import SharpGit.Implementation.EnsureInitialized
import SharpGit.Plumbing.GitBranch
import SharpGit.Plumbing.GitObjectLifetime
import SharpGit.GitClient.StagePath
import SharpGit.GitClient.StageMerge
import SharpGit.Plumbing.DiffEnumerable
import SharpGit.GitClient.AbsolutePath
import SharpGit.GitClient.PathRoot
import SharpGit.GitClient.TruePath
import SharpGit.GitClient.IndexErrors
import SharpGit.GitClient.ManagedPath
import SharpGit.Plumbing.LocateWildcard
import SharpGit.Plumbing.LocateWalk
import SharpGit.GitClient.StatusCoverage
import SharpGit.GitClient.DirectoryName
import SharpGit.GitClient.InvalidChars
import SharpGit.GitClient.Spellings
import SharpGit.GitClient.LongFullPath
import SharpGit.GitClient.GitSignature
import SharpGit.Plumbing.GitRefSpec
import SharpGit.Native.Hex
import SharpGit.GitId
import SharpGit.GitClient.HookCredentials
import SharpGit.GitClient.PushAttempts
import SharpGit.Plumbing.GitTreeEntry
import SharpGit.Library.Grouping
import SharpGit.Plumbing.GitBranchTracking
import SharpGit.Plumbing.GitIndexCollection
import SharpGit.GitClient.GitPush
import SharpGit.Implementation.AllocRelpath
import SharpGit.GitClient.ExtendedPath
import SharpGit.Library.Block
import SharpGit.Implementation.AllocStringArray
import SharpGit.GitClient.ClientSession
import SharpGit.GitClient.StatusReports
import SharpGit.Plumbing.GitCommitAncestors
import SharpGit.GitClient.GitPull
import SharpGit.GitClient.CredentialSlots
import SharpGit.GitClient.EventArgs
import SharpGit.Native.Percent
import SharpGit.Svn.Uri
import SharpGit.Svn.UriPath
import SharpGit.Svn.AbsoluteUri
import SharpGit.Svn.UriCanonical
import SharpGit.Library.Owners
import SharpGit.Plumbing.GitConfiguration
import SharpGit.Plumbing.ReferenceLifetimes
import SharpGit.Library.Place
import SharpGit.Library.Redundant
import SharpGit.Svn.LongestAncestor
import SharpGit.Svn.AncestorOrder
import SharpGit.Svn.CondenseTargets
