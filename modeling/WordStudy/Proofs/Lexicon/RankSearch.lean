import WordStudy.Proofs.Lexicon.Indexed
import WordStudy.Proofs.Search.Places

/-!
# Ranks at the search and in the store

Among words of one length, a window of ranks and a condition on the stored ranks **find the same
words**: the window ranks what was found when it is applied, the store was ranked when its rows were
built.
-/

namespace WordStudy

open Text

/-! ## §1 Plans -/

namespace Plan

end Plan

namespace Lexicon

variable {lex : Lexicon}

/-! ## §2 What the store finds -/

end Lexicon

end WordStudy
