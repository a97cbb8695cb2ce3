import SchemaShapes.Name

/-! The builtin datatypes of XML Schema. Some names stand for one code: the list types of name
tokens, references and entities share the code of their items, and everything that has no type
of its own is any atomic value. -/
namespace SchemaShapes

inductive TypeCode where
  | anyAtomicType | string | boolean | decimal | float | double | duration | dateTime | time | date
  | gYearMonth | gYear | gMonthDay | gDay | gMonth | hexBinary | base64Binary | anyUri | qName
  | notationName | normalizedString | token | language | nmToken | name | ncName | id | idRef
  | entity | integer | nonPositiveInteger | negativeInteger | long | int | short | byte
  | nonNegativeInteger | unsignedLong | unsignedInt | unsignedShort | unsignedByte
  | positiveInteger
  deriving DecidableEq

namespace TypeCode

/-- The local names of the builtin simple types. The first name of a code is the one that it is
written with. -/
def builtins : List (String × TypeCode) :=
  [("anySimpleType", .anyAtomicType), ("anyAtomicType", .anyAtomicType), ("string", .string),
   ("boolean", .boolean), ("decimal", .decimal), ("float", .float), ("double", .double),
   ("duration", .duration), ("dateTime", .dateTime), ("time", .time), ("date", .date),
   ("gYearMonth", .gYearMonth), ("gYear", .gYear), ("gMonthDay", .gMonthDay), ("gDay", .gDay),
   ("gMonth", .gMonth), ("hexBinary", .hexBinary), ("base64Binary", .base64Binary),
   ("anyURI", .anyUri), ("QName", .qName), ("NOTATION", .notationName),
   ("normalizedString", .normalizedString), ("token", .token), ("language", .language),
   ("NMTOKEN", .nmToken), ("NMTOKENS", .nmToken), ("Name", .name), ("NCName", .ncName),
   ("ID", .id), ("IDREF", .idRef), ("IDREFS", .idRef), ("ENTITY", .entity), ("ENTITIES", .entity),
   ("integer", .integer), ("nonPositiveInteger", .nonPositiveInteger),
   ("negativeInteger", .negativeInteger), ("long", .long), ("int", .int), ("short", .short),
   ("byte", .byte), ("nonNegativeInteger", .nonNegativeInteger), ("unsignedLong", .unsignedLong),
   ("unsignedInt", .unsignedInt), ("unsignedShort", .unsignedShort),
   ("unsignedByte", .unsignedByte), ("positiveInteger", .positiveInteger)]

/-- The code of a builtin simple type; any other name has none. -/
def builtin? (q : QName) : Option TypeCode :=
  if q.isXs then (builtins.find? (·.1 = q.name)).map (·.2) else none

/-- The local name that a code is written with. -/
def xsName (code : TypeCode) : String :=
  ((builtins.find? (·.2 = code)).map (·.1)).getD "anySimpleType"

def text (code : TypeCode) : String := "xs:" ++ code.xsName

end TypeCode

end SchemaShapes
