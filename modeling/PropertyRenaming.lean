import PropertyRenaming.Bench
import PropertyRenaming.Tree.Decidable
import PropertyRenaming.Proofs.Fields
import PropertyRenaming.Proofs.Sites
import PropertyRenaming.Proofs.Sweep
import PropertyRenaming.Proofs.Resolve
import PropertyRenaming.Proofs.ResolvedSites
import PropertyRenaming.Proofs.DeclaredItems
import PropertyRenaming.Proofs.Fetches
import PropertyRenaming.Proofs.FreshNames
import PropertyRenaming.Proofs.Run
import PropertyRenaming.Proofs.Substitution
import PropertyRenaming.Proofs.NoCapture
import PropertyRenaming.Proofs.Outline
import PropertyRenaming.Proofs.Chain
import PropertyRenaming.Proofs.Course
import PropertyRenaming.Proofs.LogLevels
import PropertyRenaming.Proofs.Visits
import PropertyRenaming.Proofs.ClassContext
import PropertyRenaming.Proofs.ClassNames
import PropertyRenaming.Proofs.FlatMap
import PropertyRenaming.Proofs.StablePicks
import PropertyRenaming.Proofs.Parallel
import PropertyRenaming.Proofs.Reuse
import PropertyRenaming.Proofs.PrivateDeclarations
import PropertyRenaming.Proofs.Frame
import PropertyRenaming.Proofs.Untouched
import PropertyRenaming.Proofs.Rescan
import PropertyRenaming.Proofs.FusedSweep
import PropertyRenaming.Proofs.OneWalk
import PropertyRenaming.Proofs.IdealMap
import PropertyRenaming.Proofs.DistinctNames
import PropertyRenaming.Proofs.RefusedSettings
import PropertyRenaming.Proofs.CallOrder
import PropertyRenaming.Proofs.ResolveAgain
import PropertyRenaming.Proofs.ScannedWalk
import PropertyRenaming.Proofs.AlphabeticOrder
import PropertyRenaming.Proofs.FreshWalk
import PropertyRenaming.Proofs.Revisit
import PropertyRenaming.Proofs.NewItems
import PropertyRenaming.Proofs.Counters
import PropertyRenaming.Proofs.PutBack
import PropertyRenaming.Proofs.StoppingRecords
import PropertyRenaming.Proofs.RefusedNames
import PropertyRenaming.Proofs.Exchanges
import PropertyRenaming.Proofs.HookReplies
import PropertyRenaming.Proofs.AbortedWalk
import PropertyRenaming.Proofs.WordOrder
import PropertyRenaming.Proofs.FirstChoices
import PropertyRenaming.Proofs.StaleCounts
