import TimeCodeSecurity.Accounts.Licenses
import TimeCodeSecurity.Ci.OrderFreedom
import TimeCodeSecurity.CrossFile.CallerTaint
import TimeCodeSecurity.CrossFile.Pep695
import TimeCodeSecurity.CrossFile.PropagationClosure
import TimeCodeSecurity.CrossFile.SanitizerScan
import TimeCodeSecurity.CrossFile.Validators
import TimeCodeSecurity.DefUse.Traces
import TimeCodeSecurity.Html.CsrfScope
import TimeCodeSecurity.Html.VerbatimScope
import TimeCodeSecurity.Iac.SplitAgreement
import TimeCodeSecurity.JsScan.Scanner
import TimeCodeSecurity.Notifications.Orchestration
import TimeCodeSecurity.Notifications.Pagination
import TimeCodeSecurity.Notifications.Runs
import TimeCodeSecurity.Orchestrator.AllOrNothing
import TimeCodeSecurity.Orchestrator.LineEndings
import TimeCodeSecurity.Orchestrator.LineMapping
import TimeCodeSecurity.Parsing.FileAccounting
import TimeCodeSecurity.Parsing.ParallelAnalyzer
import TimeCodeSecurity.Parsing.SliceLooks
import TimeCodeSecurity.Parsing.TolerantSweep
import TimeCodeSecurity.ProofGraph.Joins
import TimeCodeSecurity.ProofGraph.Shape
import TimeCodeSecurity.Reachability.LexicalScopes
import TimeCodeSecurity.Reachability.Serialization
import TimeCodeSecurity.Remediation.CommandFidelity
import TimeCodeSecurity.Remediation.EmittedRuns
import TimeCodeSecurity.Remediation.ImportPlace
import TimeCodeSecurity.Remediation.Literals
import TimeCodeSecurity.Remediation.PathAnchor
import TimeCodeSecurity.Remediation.Placeholders
import TimeCodeSecurity.Remediation.Verification
import TimeCodeSecurity.Sarif.Losses
import TimeCodeSecurity.Sca.ClauseOrder
import TimeCodeSecurity.Sca.EventLists
import TimeCodeSecurity.Sca.PinnedRange
import TimeCodeSecurity.Sca.PoetryRanges
import TimeCodeSecurity.Sca.QueryCompleteness
import TimeCodeSecurity.Sca.RequirementLines
import TimeCodeSecurity.Scanner.AssignmentTable
import TimeCodeSecurity.Scanner.DeadCodeRuns
import TimeCodeSecurity.Scanner.FallbackAgreement
import TimeCodeSecurity.Scanner.FoldComposition
import TimeCodeSecurity.Scanner.LiteralTextRuns
import TimeCodeSecurity.Scanner.LogMessageRuns
import TimeCodeSecurity.Scanner.NosecLocality
import TimeCodeSecurity.Scanner.ReachingRecords
import TimeCodeSecurity.Scanner.RedosVerdict
import TimeCodeSecurity.Scanner.ScopeIdentity
import TimeCodeSecurity.Scanner.XmlDocuments
import TimeCodeSecurity.Secrets.RawSecrets
import TimeCodeSecurity.Secrets.Vault
import TimeCodeSecurity.Staged.BatchReader
import TimeCodeSecurity.Staged.ClosureCompleteness
import TimeCodeSecurity.Staged.Decoding
import TimeCodeSecurity.Suppressions.OwnLine
import TimeCodeSecurity.Webhooks.AuditLog
import TimeCodeSecurity.Webhooks.WebhookClient
