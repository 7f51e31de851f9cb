import WordStudy.Engine.ListSearch
import WordStudy.Main
import WordStudy.Proofs.Graph.Canonical
import WordStudy.Proofs.Graph.History
import WordStudy.Proofs.Graph.Layout
import WordStudy.Proofs.Graph.Live
import WordStudy.Proofs.Graph.Reading
import WordStudy.Proofs.Graph.FirstPath
import WordStudy.Proofs.Graph.RoundTrip
import WordStudy.Proofs.Graph.Vocabulary
import WordStudy.Proofs.Lexicon.Authority
import WordStudy.Proofs.Lexicon.Refusals
import WordStudy.Proofs.Lexicon.RankSearch
import WordStudy.Proofs.Lexicon.Search
import WordStudy.Proofs.Search.Ties
import WordStudy.Proofs.Graph.Hooks
import WordStudy.Proofs.Lexicon.Counts
import WordStudy.Proofs.Lexicon.Definitions
import WordStudy.Proofs.Lexicon.Lookups
import WordStudy.Proofs.Lexicon.Agreement
import WordStudy.Proofs.Lexicon.Interchange
import WordStudy.Proofs.Lexicon.Cache
import WordStudy.Proofs.Lexicon.Anagrams
import WordStudy.Proofs.Lexicon.Candidates
import WordStudy.Proofs.Lexicon.Limits
import WordStudy.Proofs.Lexicon.OwnImage
import WordStudy.Proofs.Engine.Failures
import WordStudy.Proofs.Lexicon.PatternSearch
import WordStudy.Proofs.Match.Assignment
import WordStudy.Proofs.Engine.ListSearch
import WordStudy.Proofs.Search.RoundTrip
import WordStudy.Proofs.Access.History
import WordStudy.Proofs.Graph.ArenaHistory
import WordStudy.Proofs.Match.Grammar
import WordStudy.Proofs.Search.Ranking
import WordStudy.Proofs.Attributes.Numbering
import WordStudy.Proofs.Graph.Discovery
import WordStudy.Proofs.Graph.MarkedSearch
import WordStudy.Proofs.Match.MarkSearch
import WordStudy.Proofs.Tiles.Draws
import WordStudy.Proofs.Graph.Checksum
import WordStudy.Proofs.Lexicon.Extensions
import WordStudy.Proofs.Lexicon.Links
import WordStudy.Proofs.Lexicon.WordList
import WordStudy.Proofs.Search.Repeats
import WordStudy.Proofs.Graph.MarkedText
