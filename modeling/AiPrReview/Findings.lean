import AiPrReview.PyText

/-! The finding contract: what a specialist returns, and what everything
downstream of it consumes. -/

namespace AiPrReview

inductive AgentType : Type where
  | security
  | quality
  | tests
  | docs
  deriving DecidableEq

def AgentType.value : AgentType → Text
  | security => "security".toList
  | quality => "quality".toList
  | tests => "tests".toList
  | docs => "docs".toList

theorem AgentType.value_injective : Function.Injective AgentType.value := by
  intro t t' h
  cases t <;> cases t' <;> first | rfl | exact absurd h (by decide +kernel)

inductive Severity : Type where
  | critical
  | high
  | medium
  | low
  | info
  deriving DecidableEq

def Severity.value : Severity → Text
  | critical => "critical".toList
  | high => "high".toList
  | medium => "medium".toList
  | low => "low".toList
  | info => "info".toList

/-- `Field(ge=0.0, le=1.0)`. -/
structure Confidence : Type where
  val : ℚ
  nonneg : 0 ≤ val
  le_one : val ≤ 1
  deriving DecidableEq

structure Finding : Type where
  agentType : AgentType
  severity : Severity
  category : Text
  file : Text
  line : Option Int
  confidence : Confidence
  title : Text
  rationale : Text
  deriving DecidableEq

def Finding.spot (f : Finding) : Text × Option Int := (f.file, f.line)

end AiPrReview
