import SchemaShapes.Occurs
import SchemaShapes.TypeCode

/-! Content trees. A content tree describes one element with everything that it refers to put in
its place, so it can be read without the schema documents it was made from. -/
namespace SchemaShapes.Tree

/-- An attribute that an element may carry. -/
structure Attribute where
  name : QName
  type : TypeCode
  optional : Bool
  deriving DecidableEq

mutual

structure Element where
  name : QName
  type : ElementType
  nillable : Bool

inductive ElementType where
  | simple (code : TypeCode)
  | complex (description : Description)

/-- The attributes and the content of a complex type. -/
structure Description where
  attributes : List Attribute
  contents : Contents
  mixed : Bool

inductive Contents where
  | simple (code : TypeCode)
  | complex (particle : Particle)

inductive Particle where
  | empty
  | any (occurs : Occurs)
  | element (occurs : Occurs) (element : Element)
  | group (compositor : Compositor) (occurs : Occurs) (children : List Particle)

end

end SchemaShapes.Tree
