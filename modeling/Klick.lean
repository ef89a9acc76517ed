import Klick.Text
import Klick.Binary64
import Klick.Value
import Klick.Json
import Klick.Coercion
import Klick.Utf8
import Klick.CanonicalJson
import Klick.Journal
import Klick.JournalRecovery
import Klick.Networks
import Klick.Fields
import Klick.Policy
import Klick.Address
import Klick.Intent
import Klick.Mandate
import Klick.Confirm
import Klick.Events
import Klick.SignerState
import Klick.CoinSelect
import Klick.SignerPolicy
import Klick.Validate
import Klick.Admin
import Klick.Admitted
import Klick.Changes
import Klick.FirstSignature
import Klick.Release
import Klick.RoundTrip
import Klick.Atomic
import Klick.DayLimit
import Klick.MandateBudget
import Klick.Evidence
import Klick.HostileInput
import Klick.Transfers
import Klick.EthValue
import Klick.EthScan
import Klick.ApprovalRuns
import Klick.ApprovalSeats
import Klick.ApprovalRaces
import Klick.UnknownEvents
import Klick.Convergence
import Klick.Outbox
import Klick.ApprovalInbox
import Klick.GrantRuns
import Klick.AgentStart
import Klick.TunnelRuns
import Klick.ChangeRuns
import Klick.OtsFiles
import Klick.Confirming
import Klick.AddressReading
import Klick.ComplianceTick
import Klick.ComplianceTickRuns
import Klick.FindingRuns
import Klick.IsoDays
import Klick.LinkRegistration
import Klick.LinkRegistrationRuns
import Klick.Obligations
import Klick.Planner
import Klick.SafeFetch
import Klick.Sanctions
import Klick.ScreeningRuns
import Klick.SsoDomains
import Klick.SsoProvisioning
import Klick.SsoProvisioningRuns
import Klick.StorageCleanup
import Klick.StorageRuns
import Klick.WalletMemberRuns
import Klick.KeyedCalls
import Klick.DiffDisplay
import Klick.DlpPolicy
import Klick.DlpRelaxed
import Klick.DocumentVersions
import Klick.AccessReviews
import Klick.AccessReviewRuns
import Klick.Successors
import Klick.EvidenceVersionRuns
import Klick.OrgWipe
import Klick.Prices
import Klick.CoinSelection
import Klick.AccessPolicy
import Klick.EvidenceSignatures
import Klick.CoverageLaws
import Klick.AmountTexts
import Klick.SitePlanLaws
import Klick.OtsUnion
import Klick.ChangeIndexes
import Klick.SocketServer
import Klick.PublicUrl
import Klick.IncidentDeadlines
import Klick.RiskMethodLaws
import Klick.SbomRule
import Klick.ScanSecrets
import Klick.SamlDocuments
import Klick.ZipExports
import Klick.BusinessDays
import Klick.MonthIntervals
import Klick.IdentityChecks
import Klick.ActivityPage
import Klick.Csv
import Klick.JurisdictionFiles
