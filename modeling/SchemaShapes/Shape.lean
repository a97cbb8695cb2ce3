import SchemaShapes.Keyed

/-! Shapes: structural types of values. A shape is a primitive value, a record of named
properties, a collection of branches told apart by tags, or nothing known at all. The property
with the empty name is the body of a record, its text or content. -/
namespace SchemaShapes

inductive Primitive where
  | string | int32 | int64 | boolean | decimal | double | single | date | dateTime
  deriving DecidableEq

def Primitive.text : Primitive → String
  | .string => "string"
  | .int32 => "int32"
  | .int64 => "int64"
  | .boolean => "bool"
  | .decimal => "decimal"
  | .double => "double"
  | .single => "single"
  | .date => "date"
  | .dateTime => "datetime"

/-- How many times a branch of a collection may appear: once, at most once, or any number of
times. -/
inductive Multiplicity where
  | single | optional | multiple
  deriving DecidableEq

def Multiplicity.text : Multiplicity → String
  | .single => "single"
  | .optional => "optional"
  | .multiple => "multiple"

/-- What tells the branches of a collection apart. -/
inductive BranchTag where
  | record (name : Option String)
  | collection
  deriving DecidableEq

namespace BranchTag

/-- The name of a tag for readers. -/
def niceName : BranchTag → String
  | .record (some name) => name
  | .record none => "Record"
  | .collection => "Array"

/-- The code of a tag. Different tags have different codes. -/
def code : BranchTag → String
  | .record (some name) => "Record@" ++ name
  | .record none => "Record"
  | .collection => "Collection"

end BranchTag

mutual

inductive Shape where
  | top
  | primitive (kind : Primitive) (measure : Option String) (optional : Bool)
  | record (name : Option String) (properties : List Property) (optional : Bool)
  | collection (branches : List Branch)

structure Property where
  name : String
  shape : Shape

structure Branch where
  tag : BranchTag
  multiplicity : Multiplicity
  shape : Shape

end

namespace Property

/-- The body of a record. -/
def body (shape : Shape) : Property := ⟨"", shape⟩

def isBody (p : Property) : Bool := p.name == ""

end Property

/-- The tag decides which branch of a collection is meant. -/
def Branch.key (b : Branch) : BranchTag := b.tag

namespace Shape

/-- A primitive value without a unit of measure. -/
def plain (kind : Primitive) (optional : Bool) : Shape := .primitive kind none optional

/-- The collection of a sequence of branches: a repeated tag keeps its first place and takes its
last branch. -/
def ofBranches (branches : List Branch) : Shape :=
  .collection (Keyed.ofList Branch.key branches)

/-- The branches of a collection; no other shape has any. -/
def branches : Shape → List Branch
  | .collection bs => bs
  | _ => []

/-- Whether the value may be missing. -/
def isOptional : Shape → Bool
  | .primitive _ _ optional => optional
  | .record _ _ optional => optional
  | _ => false

/-- Set whether the value may be missing, where the shape can say so. -/
def withOptional (optional : Bool) : Shape → Shape
  | .primitive kind measure _ => .primitive kind measure optional
  | .record name properties _ => .record name properties optional
  | shape => shape

def ensureOptional (s : Shape) : Shape := s.withOptional true

def dropOptional (s : Shape) : Shape := s.withOptional false

end Shape

end SchemaShapes
