import SchemaShapes.Markup.Vocabulary
import SchemaShapes.Name
import SchemaShapes.Schema.Error
import SchemaShapes.Text.Blank
import SchemaShapes.Text.Cut

/-! Contexts: what a document fixes for the names in it. References are expected with their
namespaces in braces; a label that is still there was not bound. -/
namespace SchemaShapes.Schema

open Markup (Form)
open Text (cutAt)

structure Context where
  targetNamespace : Option String
  elementForm : Form
  attributeForm : Form
  /-- Whether the document has taken on the namespace of the one that includes it. -/
  chameleon : Bool

namespace Context

/-- The component that a written reference means. Without braces or a label it is in no
namespace, except in a chameleon document, where it is in the target namespace. -/
def resolve (ctx : Context) (written : String) : Except DeclarationError QName :=
  let name := Text.trim written
  match name.toList with
  | [] => .error (.invalidName name)
  | '\x7b' :: rest =>
    match cutAt ['\x7d'] rest with
    | none => .error (.invalidName name)
    | some (ns, base) =>
      if base = [] ∨ ':' ∈ base then .error (.invalidName name)
      else .ok (.of (some (String.ofList ns)) (String.ofList base))
  | cs =>
    match cutAt [':'] cs with
    | some (label, base) =>
      if label = [] ∨ base = [] ∨ ':' ∈ base then .error (.invalidName name)
      else .error (.undeclaredPrefix name)
    | none => .ok (.of (if ctx.chameleon then ctx.targetNamespace else none) name)

/-- The name of a component at the top level. -/
def globalName (ctx : Context) (name : String) : QName := .of ctx.targetNamespace name

/-- The name of a declaration of a form. -/
def nameOfForm (ctx : Context) (name : String) : Form → QName
  | .qualified => ctx.globalName name
  | .unqualified => .bare name

/-- The name of an element that is declared inside another component. -/
def localElementName (ctx : Context) (name : String) (form : Option Form) : QName :=
  ctx.nameOfForm name (form.getD ctx.elementForm)

/-- The name of an attribute that is declared inside another component. -/
def localAttributeName (ctx : Context) (name : String) (form : Option Form) : QName :=
  ctx.nameOfForm name (form.getD ctx.attributeForm)

end Context

end SchemaShapes.Schema
