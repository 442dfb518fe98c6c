import LocalRag.Api.Cancellation
import LocalRag.Api.NamedFiles
import LocalRag.Api.PromptSources
import LocalRag.Api.Reranking
import LocalRag.Api.Retries
import LocalRag.Common.IgnorePatterns
import LocalRag.Common.Singletons
import LocalRag.Indexer.EmptyMount
import LocalRag.Indexer.Filters
import LocalRag.Indexer.HashedContent
import LocalRag.Indexer.IndexWorker
import LocalRag.Indexer.PurgeAgreement
import LocalRag.Indexer.SkipSoundness
import LocalRag.Indexer.StartupGap
import LocalRag.Indexer.Unindexable
import LocalRag.Ingest.CollectionSetup
import LocalRag.Ingest.MarkdownLimit
import LocalRag.Ingest.MarkdownSections
import LocalRag.Ingest.PythonStatements
import LocalRag.Web.Access
import LocalRag.Web.ChatToModel
import LocalRag.Web.EndToEnd
import LocalRag.Web.PageRequests
import LocalRag.Web.Passwords
import LocalRag.Web.QuestionLimit
