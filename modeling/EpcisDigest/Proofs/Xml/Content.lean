import EpcisDigest.Xml.Builder

namespace EpcisDigest.Xml

inductive Content where
  | text (text : String)
  | element (name : String) (attributes : List (String × String)) (content : List Content)

namespace Content

mutual

def steps : Content → List Step
  | .text piece => [.text piece]
  | .element name attributes content => .opening name attributes false :: (stepsOf content ++ [.closing])

def stepsOf : List Content → List Step
  | [] => []
  | part :: content => part.steps ++ stepsOf content

end

def textOf : List Content → String
  | [] => ""
  | .text piece :: content => piece ++ textOf content
  | .element _ _ _ :: content => textOf content

def Declareless (attributes : List (String × String)) : Prop :=
  ∀ declared ∈ attributes, Text.startsWith "xmlns:" declared.1 = false

mutual

def Bindless : Content → Prop
  | .text _ => True
  | .element _ attributes content => Declareless attributes ∧ AllBindless content

def AllBindless : List Content → Prop
  | [] => True
  | part :: content => part.Bindless ∧ AllBindless content

end

section Fields

variable (settings : Settings) (namespaces : Namespaces)

mutual

def fields (host : String) : Content → List Field
  | .text _ => []
  | .element name attributes content =>
    let name := strippedName namespaces name
    if settings.isExcluded name then []
    else
      let frame := Builder.frameIn settings namespaces host name attributes
      Builder.closedFields (Frame.add { frame with text := frame.text ++ textOf content } (fieldsOf frame.host content))

def fieldsOf (host : String) : List Content → List Field
  | [] => []
  | part :: content => part.fields host ++ fieldsOf host content

end

end Fields

end Content

open Content

namespace Frame

def fill (settings : Settings) (namespaces : Namespaces) (frame : Frame) (content : List Content) : Frame :=
  Frame.add { frame with text := frame.text ++ textOf content } (fieldsOf settings namespaces frame.host content)

end Frame

theorem declare_declareless (namespaces : Namespaces) {attributes : List (String × String)}
    (declareless : Declareless attributes) : Builder.declare namespaces attributes = namespaces := by
  induction attributes with
  | nil => rfl
  | cons declared attributes ih =>
    have plain := declareless declared List.mem_cons_self
    have others := ih fun other member => declareless other (List.mem_cons_of_mem _ member)
    have kept : Text.after? "xmlns:" declared.1 = none := by
      rw [Text.after?, plain]
      rfl
    rw [Builder.declare, List.foldl_cons, kept]
    exact others

theorem textOf_append (first others : List Content) : textOf (first ++ others) = textOf first ++ textOf others := by
  induction first with
  | nil => exact String.empty_append.symm
  | cons part first ih =>
    cases part with
    | text piece => rw [List.cons_append, textOf, textOf, ih, String.append_assoc]
    | element name attributes content => exact ih

theorem fieldsOf_append (settings : Settings) (namespaces : Namespaces) (host : String) (first others : List Content) :
    fieldsOf settings namespaces host (first ++ others) =
      fieldsOf settings namespaces host first ++ fieldsOf settings namespaces host others := by
  induction first with
  | nil => rfl
  | cons part first ih => rw [List.cons_append, fieldsOf, fieldsOf, ih, List.append_assoc]

theorem fill_nil (settings : Settings) (namespaces : Namespaces) (frame : Frame) :
    frame.fill settings namespaces [] = frame := by
  simp only [Frame.fill, Frame.add, textOf, fieldsOf, String.append_empty, List.reverse_nil, List.nil_append]

theorem fill_text (settings : Settings) (namespaces : Namespaces) (frame : Frame) (piece : String)
    (content : List Content) : frame.fill settings namespaces (.text piece :: content) =
      Frame.fill settings namespaces { frame with text := frame.text ++ piece } content := by
  simp only [Frame.fill, Frame.add, textOf, fieldsOf, fields, List.nil_append, String.append_assoc]

theorem strippedName_of_unprefixed (namespaces : Namespaces) {name : String}
    (unprefixed : Text.cut? ':' name = none) : strippedName namespaces name = name := by
  rw [strippedName, unprefixed]

end EpcisDigest.Xml
