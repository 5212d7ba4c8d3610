import AiPrReview.ChunkCoverage
import AiPrReview.Indexer

/-! Which chunks the one transaction of an index can take: PostgreSQL stores no
text with a NUL, and a NUL is valid UTF-8 and no white space. -/

namespace AiPrReview

section

variable {isWord : Char → Bool} {path text : Text}

end

/-! A chunked file is legal when its path and its text are. -/

section

variable {E : Type} (isWord : Char → Bool) (embedding : Text → E)

end

end AiPrReview
