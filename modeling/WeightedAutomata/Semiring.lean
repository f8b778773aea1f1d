-- The weight domains of an automaton. No operation combines weights: a semiring
-- only names the domain and gives the weight of a transition added without one.
namespace WeightedAutomata

/-- The domain that the weights of an automaton are read in. -/
inductive Semiring where
  | probability
  | log
  | tropical
  deriving DecidableEq

namespace Semiring

/-- The neutral weight of multiplication: probabilities multiply, the other two add. -/
def one : Semiring → Float
  | probability => 1.0
  | log => 0.0
  | tropical => 0.0

/-- The name that reports use. -/
def name : Semiring → String
  | probability => "probability semiring"
  | log => "log semiring"
  | tropical => "tropical semiring"

end Semiring

end WeightedAutomata
