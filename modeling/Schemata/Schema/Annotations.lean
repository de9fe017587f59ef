import Schemata.Value.Render

/-!
Annotations: names, descriptions and messages attached to a schema. They never change what a schema accepts.
-/
namespace Schemata

inductive MessageRule where
  | constant (text : String)
  /-- The text, followed by the rendered value. -/
  | before (text : String)
  /-- A function known by name. -/
  | named (name : String)
  deriving DecidableEq, Repr

/-- A message. The stamp tells apart messages that were written separately. -/
structure Message where
  stamp : Nat
  rule : MessageRule
  deriving DecidableEq, Repr

def Message.text (named : String → Value → String) (m : Message) (v : Value) : String :=
  match m.rule with
  | .constant text => text
  | .before text => text ++ v.render
  | .named name => named name v

structure Annotations where
  identifier : Option String := none
  title : Option String := none
  description : Option String := none
  message : Option Message := none
  label : Option String := none
  examples : Option Value := none

namespace Annotations

def empty : Annotations := {}

def titled (title : String) : Annotations := { title := some title }

def labelled (label : String) : Annotations := { label := some label }

/-- Lays the fields that are set on `overlay` over those of `base`. -/
def merge (base overlay : Annotations) : Annotations where
  identifier := overlay.identifier <|> base.identifier
  title := overlay.title <|> base.title
  description := overlay.description <|> base.description
  message := overlay.message <|> base.message
  label := overlay.label <|> base.label
  examples := overlay.examples <|> base.examples

def defaultLabel : String := "<refinement>"

/-- The first of label, identifier, title and description that is not empty, and else the given text. -/
def labelOr (a : Annotations) (otherwise : String) : String :=
  (([a.label, a.identifier, a.title, a.description].filterMap id).find? (· != "")).getD otherwise

def displayLabel (a : Annotations) : String := a.labelOr defaultLabel

def renderMessage (named : String → Value → String) (a : Annotations) (v : Value) : Option String :=
  a.message.map fun m => m.text named v

def equalExamples : Option Value → Option Value → Bool
  | none, none => true
  | some v, some w => v.equals w
  | _, _ => false

def equals (a b : Annotations) : Bool :=
  a.identifier == b.identifier && a.title == b.title && a.description == b.description &&
    a.message == b.message && a.label == b.label && equalExamples a.examples b.examples

end Annotations

end Schemata
