import CilAudit.Model.Draft

set_option autoImplicit false

/-! The part of the class library that rules ask about, as definitions of a referenced assembly. -/

namespace CilAudit.Draft

/-- The assembly that the class library stands in. -/
def classLibraryName : String := "mscorlib"

/-- References that the definitions below are written with. -/
structure LibraryRefs where
  object : TypeSig
  delegate : TypeSig
  multicast : TypeSig
  valueType : TypeSig
  eventArgs : TypeSig
  enumerable : TypeSig
  genericEnumerable : TypeSig
  collection : TypeSig
  genericCollection : TypeSig

/-- Makes the references, in this order. -/
def referLibrary (d : Draft) : LibraryRefs × Draft :=
  let (object, d) := d.refer "System" "Object"
  let (delegate, d) := d.refer "System" "Delegate"
  let (multicast, d) := d.refer "System" "MulticastDelegate"
  let (valueType, d) := d.refer "System" "ValueType"
  let (eventArgs, d) := d.refer "System" "EventArgs"
  let (enumerable, d) := d.refer "System.Collections" "IEnumerable"
  let (genericEnumerable, d) := d.refer "System.Collections.Generic" "IEnumerable`1"
  let (collection, d) := d.refer "System.Collections" "ICollection"
  let (genericCollection, d) := d.refer "System.Collections.Generic" "ICollection`1"
  (⟨object, delegate, multicast, valueType, eventArgs, enumerable, genericEnumerable, collection,
    genericCollection⟩, d)

/-- A primitive type's own definition. -/
def primitiveType (p : Primitive) (traits : UInt32) : TypeDefinition where
  space := "System"
  name := p.systemName
  flavor := .prim p
  traits := traits

/-- The method that raises an event whose argument has the given type. -/
def handlerInvoke (args : TypeSig) : MethodDefinition :=
  ((MethodDefinition.invoke (.prim .void)).withParam "sender" (.prim .object)).withParam "e" args

/-- The definitions, in the order of their rows. -/
def libraryTypes (r : LibraryRefs) : List TypeDefinition :=
  let item : TypeSig := .typeParam 0
  let generic := "System.Collections.Generic"
  [ primitiveType .object 0,
    (TypeDefinition.ofClass "System" "ValueType").extending r.object,
    (primitiveType .void 0).extending r.valueType,
    (primitiveType .i4 0).extending r.valueType,
    (((primitiveType .string TypeFlags.sealed).extending r.object).implementing
      r.enumerable).implementing (.generic r.genericEnumerable [.prim .char]),
    (TypeDefinition.ofClass "System" "EventArgs").extending r.object,
    (TypeDefinition.ofClass "System" "Delegate").extending r.object,
    (TypeDefinition.ofClass "System" "MulticastDelegate").extending r.delegate,
    ((TypeDefinition.ofDelegate "System" "EventHandler").extending r.multicast).withMethod
      (handlerInvoke r.eventArgs),
    (((TypeDefinition.ofDelegate "System" "EventHandler`1").extending r.multicast).withArity
      1).withMethod (handlerInvoke item),
    TypeDefinition.ofInterface "System.Collections" "IEnumerable",
    ((TypeDefinition.ofInterface generic "IEnumerable`1").withArity 1).implementing r.enumerable,
    (TypeDefinition.ofInterface "System.Collections" "ICollection").implementing r.enumerable,
    ((TypeDefinition.ofInterface generic "ICollection`1").withArity 1).implementing
      (.generic r.genericEnumerable [item]),
    (((((TypeDefinition.ofClass generic "List`1").withArity 1).extending r.object).implementing
      r.collection).implementing (.generic r.genericCollection [item])).implementing
      (.generic r.genericEnumerable [item]) ]

/-- Defines types in order, up to the first that fails. -/
def defineAll (d : Draft) : List TypeDefinition → Except MetadataError Draft
  | [] => .ok d
  | definition :: rest =>
    match d.define definition with
    | (.error e, _) => .error e
    | (.ok _, d) => d.defineAll rest

/-- The draft with the class library added to it. -/
def withClassLibrary (d : Draft) : Except MetadataError Draft :=
  let (refs, d) := d.referLibrary
  d.defineAll ((libraryTypes refs).map fun t => t.exposed.inAssembly classLibraryName)

end CilAudit.Draft
