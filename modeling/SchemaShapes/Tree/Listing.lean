import SchemaShapes.Listing
import SchemaShapes.Text.Quoted
import SchemaShapes.Tree.Basic

/-! Content trees as listings: every part of a tree is named, in the order of its structure. -/
namespace SchemaShapes

open Text (quoted writeUInt64)

/-- A flag as a word. -/
def flagListing (b : Bool) : Listing := .word (if b then "true" else "false")

def textListing (s : String) : Listing := .word (quoted s)

def QName.listing (q : QName) : Listing :=
  .record "QualifiedName"
    [.field "namespace" (.option (q.ns.map textListing)), .field "name" (textListing q.name)]

def MaxOccurs.listing : MaxOccurs → Listing
  | .bounded n => .apply "Bounded" [.word (writeUInt64 n)]
  | .unbounded => .word "Unbounded"

def Occurs.listing (o : Occurs) : Listing :=
  .record "Occurs" [.field "min" (.word (writeUInt64 o.min)), .field "max" o.max.listing]

def Compositor.title : Compositor → String
  | .all => "All"
  | .choice => "Choice"
  | .sequence => "Sequence"

/-- The name of a code in listings. -/
def TypeCode.title : TypeCode → String
  | .anyAtomicType => "AnyAtomicType"
  | .string => "String"
  | .boolean => "Boolean"
  | .decimal => "Decimal"
  | .float => "Float"
  | .double => "Double"
  | .duration => "Duration"
  | .dateTime => "DateTime"
  | .time => "Time"
  | .date => "Date"
  | .gYearMonth => "GYearMonth"
  | .gYear => "GYear"
  | .gMonthDay => "GMonthDay"
  | .gDay => "GDay"
  | .gMonth => "GMonth"
  | .hexBinary => "HexBinary"
  | .base64Binary => "Base64Binary"
  | .anyUri => "AnyUri"
  | .qName => "QName"
  | .notationName => "Notation"
  | .normalizedString => "NormalizedString"
  | .token => "Token"
  | .language => "Language"
  | .nmToken => "NmToken"
  | .name => "Name"
  | .ncName => "NcName"
  | .id => "Id"
  | .idRef => "IdRef"
  | .entity => "Entity"
  | .integer => "Integer"
  | .nonPositiveInteger => "NonPositiveInteger"
  | .negativeInteger => "NegativeInteger"
  | .long => "Long"
  | .int => "Int"
  | .short => "Short"
  | .byte => "Byte"
  | .nonNegativeInteger => "NonNegativeInteger"
  | .unsignedLong => "UnsignedLong"
  | .unsignedInt => "UnsignedInt"
  | .unsignedShort => "UnsignedShort"
  | .unsignedByte => "UnsignedByte"
  | .positiveInteger => "PositiveInteger"

def TypeCode.listing (code : TypeCode) : Listing := .word code.title

namespace Tree

def Attribute.listing (a : Attribute) : Listing :=
  .record "AttributeDescriptor"
    [.field "name" a.name.listing, .field "type_code" a.type.listing,
      .field "optional" (flagListing a.optional)]

mutual

def Element.listing : Element → Listing
  | ⟨name, type, nillable⟩ =>
    .record "SchemaElement"
      [.field "name" name.listing, .field "element_type" type.listing,
        .field "nillable" (flagListing nillable)]

def ElementType.listing : ElementType → Listing
  | .simple code => .apply "Simple" [code.listing]
  | .complex description => .apply "Complex" [description.listing]

def Description.listing : Description → Listing
  | ⟨attributes, contents, mixed⟩ =>
    .record "ComplexTypeDescriptor"
      [.field "attributes" (.list (attributes.map Attribute.listing)),
        .field "contents" contents.listing, .field "mixed" (flagListing mixed)]

def Contents.listing : Contents → Listing
  | .simple code => .apply "SimpleContent" [code.listing]
  | .complex particle => .apply "ComplexContent" [particle.listing]

def Particle.listing : Particle → Listing
  | .empty => .word "Empty"
  | .any occurs => .apply "Any" [occurs.listing]
  | .element occurs element => .apply "Element" [occurs.listing, element.listing]
  | .group compositor occurs children =>
    .apply compositor.title [occurs.listing, .list (listings children)]

/-- The listings of particles, in order. -/
def listings : List Particle → List Listing
  | [] => []
  | p :: ps => p.listing :: listings ps

end

end Tree

end SchemaShapes
