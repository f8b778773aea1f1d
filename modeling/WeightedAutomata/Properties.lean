-- Sets of properties of automata, as bits: what the transitions carry, and the shape of
-- the graph.
namespace WeightedAutomata

/-- A set of properties. Bits without a name are kept. -/
structure Properties where
  bits : UInt32
  deriving DecidableEq

namespace Properties

/-! ## The named properties -/

def none : Properties := ⟨0⟩

/-- Transitions carry input labels. -/
def acceptor : Properties := ⟨0x1⟩

/-- Transitions carry input and output labels. A transducer is an acceptor too. -/
def transducer : Properties := ⟨0x3⟩

/-- Transitions carry weights. -/
def weighted : Properties := ⟨0x4⟩

/-- Some transition is a loop. -/
def loops : Properties := ⟨0x100⟩

/-- Every state but the first is entered from another state. -/
def forwardConnected : Properties := ⟨0x200⟩

/-- Every state that is not final is left to another state. -/
def backwardConnected : Properties := ⟨0x400⟩

/-- No state is entered from other states twice. -/
def forwardTree : Properties := ⟨0x800⟩

/-- No state but the first is left to other states twice. -/
def backwardTree : Properties := ⟨0x1000⟩

/-- All properties of the graph. -/
def topology : Properties := ⟨0x1F00⟩

/-- All bits. -/
def all : Properties := ⟨0xFFFFFFFF⟩

/-! ## Sets -/

def union (p q : Properties) : Properties := ⟨p.bits ||| q.bits⟩

def inter (p q : Properties) : Properties := ⟨p.bits &&& q.bits⟩

def without (p q : Properties) : Properties := ⟨p.bits &&& ~~~q.bits⟩

/-- Every bit of `q` is one of `p`. -/
def contains (p q : Properties) : Bool := p.bits &&& q.bits == q.bits

def isEmpty (p : Properties) : Bool := p.bits == 0

/-- A property where a condition holds. -/
def given (condition : Bool) (p : Properties) : Properties := if condition then p else none

/-- The properties that a mask selects. The empty mask selects all. -/
def select (mask p : Properties) : Properties := if mask.isEmpty then p else p.inter mask

/-! ## Text -/

/-- The properties with their names. A transducer is looked for before an acceptor. -/
def named : List (Properties × String) :=
  [(transducer, "TRANSDUCER"), (acceptor, "ACCEPTOR"), (weighted, "WEIGHTED"), (loops, "LOOPS"),
    (forwardConnected, "FWD_CONNECTED"), (backwardConnected, "BKW_CONNECTED"),
    (forwardTree, "FWD_TREE"), (backwardTree, "BKW_TREE")]

/-- The names of the properties in a set, and the bits that no name takes. -/
def names (p : Properties) : List (Properties × String) → List String × Properties
  | [] => ([], p)
  | (q, name) :: later =>
    if p.contains q then
      let (found, rest) := (p.without q).names later
      (name :: found, rest)
    else p.names later

/-- The names of a set, and in hexadecimal what has no name. -/
def text (p : Properties) : String :=
  let (found, rest) := p.names named
  let left := if rest.isEmpty then ""
    else "|0x" ++ String.ofList (Nat.toDigits 16 rest.bits.toNat)
  "Properties(" ++ "|".intercalate found ++ left ++ ")"

end Properties

end WeightedAutomata
