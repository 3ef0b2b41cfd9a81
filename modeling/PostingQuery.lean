import PostingQuery.Boolean.Explain
import PostingQuery.Collect.Search
import PostingQuery.Json.Results
import PostingQuery.Proofs.AcceptedPostings
import PostingQuery.Proofs.BestScore
import PostingQuery.Proofs.ClauseCount
import PostingQuery.Proofs.CostEstimate
import PostingQuery.Proofs.ExactReads
import PostingQuery.Proofs.ExcludedDocuments
import PostingQuery.Proofs.ExplainedDocuments
import PostingQuery.Proofs.FaultyExactPhrase
import PostingQuery.Proofs.FaultySloppyPhrase
import PostingQuery.Proofs.HeapOperations
import PostingQuery.Proofs.JsonText
import PostingQuery.Proofs.LimitedSearch
import PostingQuery.Proofs.OwnPositions
import PostingQuery.Proofs.PartialDrains
import PostingQuery.Proofs.PhraseAgreement
import PostingQuery.Proofs.PostingWalk
import PostingQuery.Proofs.QuorumReserve
import PostingQuery.Proofs.RearrangedTerms
import PostingQuery.Proofs.RefusedHits
import PostingQuery.Proofs.RepeatedTerms
import PostingQuery.Proofs.SettingsText
import PostingQuery.Proofs.SharedDocuments
import PostingQuery.Proofs.SloppyReads
import PostingQuery.Proofs.StaggeredParts
import PostingQuery.Proofs.StaleBuckets
import PostingQuery.Proofs.WatchedPhrase
import PostingQuery.Proofs.WiderSlop
import PostingQuery.Settings.Json
import PostingQuery.Tree
