import SchemaShapes.Text.Blank
import SchemaShapes.Text.Numeral

/-! Model groups and the occurrence bounds of particles: how the parts of a content model are put
together, how often each has to appear and how often it may. -/
namespace SchemaShapes

/-- The ways in which a model group puts its particles together. -/
inductive Compositor where
  | sequence
  | choice
  | all
  deriving DecidableEq

/-- An upper bound. -/
inductive MaxOccurs where
  | bounded (n : UInt64)
  | unbounded
  deriving DecidableEq

/-- The text was neither a count nor the word for no bound; it is kept as it was given. -/
inductive OccursError where
  | invalidMaxOccurs (value : String)
  deriving DecidableEq

def OccursError.message : OccursError → String
  | .invalidMaxOccurs value => "invalid maxOccurs value: " ++ value

namespace MaxOccurs

/-- Read an upper bound, white space around it aside. -/
def parse (s : String) : Except OccursError MaxOccurs :=
  let core := Text.strip Text.isSpace s.toList
  if core = "unbounded".toList then
    .ok .unbounded
  else
    match Text.readUInt64 core with
    | some n => .ok (.bounded n)
    | none => .error (.invalidMaxOccurs s)

def text : MaxOccurs → String
  | .bounded n => Text.writeUInt64 n
  | .unbounded => "unbounded"

end MaxOccurs

structure Occurs where
  min : UInt64
  max : MaxOccurs
  deriving DecidableEq

namespace Occurs

/-- Exactly one occurrence. -/
def once : Occurs := ⟨1, .bounded 1⟩

/-- At most one occurrence. -/
def optional : Occurs := ⟨0, .bounded 1⟩

/-- Any number of occurrences. -/
def anyNumber : Occurs := ⟨0, .unbounded⟩

/-- Bounds as attributes give them: a bound that is not given is one. -/
def ofAttributes (min : Option UInt64) (max : Option MaxOccurs) : Occurs :=
  ⟨min.getD 1, max.getD (.bounded 1)⟩

def text (o : Occurs) : String :=
  "[" ++ Text.writeUInt64 o.min ++ ".." ++ o.max.text ++ "]"

end Occurs

end SchemaShapes
