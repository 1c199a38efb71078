import JvmRelocation.ClassFile.Builder

/-!
# Calls of a class builder

A class is built by calls in any order. A call is a step of construction, which may answer with an
index, and it says something about the class in texts: no index of a constant and no byte order
appears in what it says.
-/

namespace JvmRelocation

/-! ## Parts of a class in texts -/

/-- An annotation in texts: the descriptor of its type, and its elements. Every element is a
constant of an enumeration, given by the element's name, the enumeration's descriptor and the
constant's name. -/
structure AnnotationText where
  type : String
  elements : List (String × String × String)

/-- An attribute in texts. -/
inductive AttributeText where
  /-- An attribute whose body is the index of a text. -/
  | value (name text : String)
  | bytes (name : String) (body : Bytes)
  /-- Instructions, with tables of local variables that have a name and a descriptor. -/
  | code (maxStack maxLocals : UInt16) (instructions : Bytes)
      (tables : List (List (String × String)))
  | annotations (name : String) (list : List AnnotationText)

/-- The name of an attribute. -/
def AttributeText.name : AttributeText → String
  | value name _ => name
  | bytes name _ => name
  | code .. => "Code"
  | annotations name _ => name

/-- A public field or method in texts. -/
structure MemberText where
  name : String
  descriptor : String
  attributes : List AttributeText

/-- A class in texts, apart from its name. -/
structure ClassText where
  majorVersion : UInt16
  superName : String
  interfaces : List String
  fields : List MemberText
  methods : List MemberText
  attributes : List AttributeText
  visible : List AnnotationText
  invisible : List AnnotationText

/-- The attribute that applies the given annotations, if there are any. -/
def AttributeText.ofAnnotations (name : String) : List AnnotationText → List AttributeText
  | [] => []
  | list => [.annotations name list]

/-- The attributes of a class: its own, and those that apply its annotations. -/
def ClassText.allAttributes (t : ClassText) : List AttributeText :=
  t.attributes ++ AttributeText.ofAnnotations ClassBuilder.visibleName t.visible ++
    AttributeText.ofAnnotations ClassBuilder.invisibleName t.invisible

/-! ## Calls -/

/-- A call of a class builder. -/
inductive BuildCall where
  | majorVersion (major : UInt16)
  | superClass (name : String)
  | interface (name : String)
  | field (name descriptor : String)
  | fieldWithSignature (name descriptor signature : String)
  | method (name descriptor : String)
  | methodWithCode (name descriptor : String) (maxStack maxLocals : UInt16) (code : Bytes)
  | methodWithLocals (name descriptor : String) (locals : List (String × String))
  | annotate (descriptor : String)
  | annotateInvisibly (descriptor : String)
  | annotateWithEnum (descriptor element enumDescriptor constant : String)
  | sourceFile (name : String)
  | classSignature (signature : String)
  | rawClassAttribute (name : String) (body : Bytes)
  | stringConstant (value : String)
  | classRef (name : String)
  | methodRef (owner name descriptor : String)
  | utf8 (value : String)

namespace BuildCall

/-- A step without an answer. -/
def silently (step : BuildStep Unit) : BuildStep (Option UInt16) := do
  step
  return none

/-- A step whose answer is an index. -/
def answering (step : BuildStep UInt16) : BuildStep (Option UInt16) := do
  return some (← step)

open ClassBuilder in
/-- What a call does, and what it answers. -/
def perform : BuildCall → BuildStep (Option UInt16)
  | majorVersion major => silently (setMajorVersion major)
  | superClass name => silently (setSuperClass name)
  | interface name => silently (addInterface name)
  | field name descriptor => silently (addField name descriptor)
  | fieldWithSignature name descriptor signature =>
    silently (addFieldWithSignature name descriptor signature)
  | method name descriptor => silently (addMethod name descriptor)
  | methodWithCode name descriptor maxStack maxLocals code =>
    silently (addMethodWithCode name descriptor maxStack maxLocals code)
  | methodWithLocals name descriptor locals =>
    silently (addMethodWithLocals name descriptor locals)
  | annotate descriptor => silently (addVisible descriptor)
  | annotateInvisibly descriptor => silently (addInvisible descriptor)
  | annotateWithEnum descriptor element enumDescriptor constant =>
    silently (addAnnotationWithEnum descriptor element enumDescriptor constant)
  | sourceFile name => silently (addSourceFile name)
  | classSignature signature => silently (addClassSignature signature)
  | rawClassAttribute name body => silently (addRawAttribute name body)
  | stringConstant value => answering (literal value)
  | classRef name => answering (ClassBuilder.classRef name)
  | methodRef owner name descriptor => answering (ClassBuilder.methodRef owner name descriptor)
  | utf8 value => answering (text value)

/-- The answers of calls on a class with the given name. -/
def answers (name : String) (calls : List BuildCall) : List (Option UInt16) :=
  ((calls.mapM perform).run (ClassBuilder.new name)).1

/-- The builder that calls on a class with the given name lead to. -/
def builder (name : String) (calls : List BuildCall) : ClassBuilder :=
  ((calls.mapM perform).run (ClassBuilder.new name)).2

/-! ### What calls say -/

/-- The version that a call sets. -/
def major? : BuildCall → Option UInt16
  | majorVersion major => some major
  | _ => none

/-- The superclass that a call sets. -/
def superName? : BuildCall → Option String
  | superClass name => some name
  | _ => none

/-- The interface that a call adds. -/
def interface? : BuildCall → Option String
  | interface name => some name
  | _ => none

/-- The field that a call adds. -/
def field? : BuildCall → Option MemberText
  | field name descriptor => some ⟨name, descriptor, []⟩
  | fieldWithSignature name descriptor signature =>
    some ⟨name, descriptor, [.value "Signature" signature]⟩
  | _ => none

/-- The method that a call adds. -/
def method? : BuildCall → Option MemberText
  | method name descriptor => some ⟨name, descriptor, []⟩
  | methodWithCode name descriptor maxStack maxLocals code =>
    some ⟨name, descriptor, [.code maxStack maxLocals code []]⟩
  | methodWithLocals name descriptor locals =>
    some ⟨name, descriptor, [.code 1 (UInt16.ofNat (locals.length + 1)) [0xB1] [locals]]⟩
  | _ => none

/-- The attribute that a call adds to the class, annotations aside. -/
def attribute? : BuildCall → Option AttributeText
  | sourceFile name => some (.value "SourceFile" name)
  | classSignature signature => some (.value "Signature" signature)
  | rawClassAttribute name body => some (.bytes name body)
  | _ => none

/-- The annotation, visible at run time, that a call adds. -/
def visible? : BuildCall → Option AnnotationText
  | annotate descriptor => some ⟨descriptor, []⟩
  | annotateWithEnum descriptor element enumDescriptor constant =>
    some ⟨descriptor, [(element, enumDescriptor, constant)]⟩
  | _ => none

/-- The annotation, not visible at run time, that a call adds. -/
def invisible? : BuildCall → Option AnnotationText
  | annotateInvisibly descriptor => some ⟨descriptor, []⟩
  | _ => none

/-- The type of the annotation that a call adds. -/
def annotationType? : BuildCall → Option String
  | annotate descriptor => some descriptor
  | annotateInvisibly descriptor => some descriptor
  | annotateWithEnum descriptor _ _ _ => some descriptor
  | _ => none

/-! ### What calls may be given -/

/-- The texts that a call is given. -/
def texts : BuildCall → List String
  | majorVersion _ => []
  | superClass name | interface name | classRef name => [name]
  | field name descriptor | method name descriptor => [name, descriptor]
  | fieldWithSignature name descriptor signature => [name, descriptor, signature]
  | methodWithCode name descriptor _ _ _ => [name, descriptor]
  | methodWithLocals name descriptor locals =>
    name :: descriptor :: locals.flatMap fun v => [v.1, v.2]
  | annotate descriptor | annotateInvisibly descriptor => [descriptor]
  | annotateWithEnum descriptor element enumDescriptor constant =>
    [descriptor, element, enumDescriptor, constant]
  | sourceFile name => [name]
  | classSignature signature => [signature]
  | rawClassAttribute name _ => [name]
  | stringConstant value | utf8 value => [value]
  | methodRef owner name descriptor => [owner, name, descriptor]

/-- The numbers that a call stores fit their fields: 16 bits for local variables, 32 bits for the
length of an attribute. -/
def NumbersFit : BuildCall → Prop
  | methodWithLocals _ _ locals => locals.length + 1 ≤ 65535
  | methodWithCode _ _ _ _ code => code.length + 12 ≤ 4294967295
  | rawClassAttribute _ body => body.length ≤ 4294967295
  | _ => True

end BuildCall

/-- What calls say about a class: the last call that sets something wins, and what calls add comes in
the order of the calls. -/
def ClassText.ofCalls (calls : List BuildCall) : ClassText where
  majorVersion := (calls.filterMap BuildCall.major?).getLast?.getD 52
  superName := (calls.filterMap BuildCall.superName?).getLast?.getD "java/lang/Object"
  interfaces := calls.filterMap BuildCall.interface?
  fields := calls.filterMap BuildCall.field?
  methods := calls.filterMap BuildCall.method?
  attributes := calls.filterMap BuildCall.attribute?
  visible := calls.filterMap BuildCall.visible?
  invisible := calls.filterMap BuildCall.invisible?

end JvmRelocation
