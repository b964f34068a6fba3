import TypeAtlas.Documentation

/-!
# Records

The documents of the two sources, as their extractors deliver them. Every part may be missing.

## Main definitions

* `NativeRecord` — a documented namespace, type or page of a native source.
* `ManagedRecord` — a reflected type of a managed source.
-/

namespace TypeAtlas

/-! ## Native sources -/

/-- A parameter as it is declared. -/
structure NativeParamRecord where
  name : String := ""
  rawType : String := ""
  /-- The direction attribute in front of the type. -/
  attributes : String := ""
  description : DocText := {}
  deriving DecidableEq, Repr

/-- A value of an enumeration as it is declared. -/
structure EnumValueRecord where
  name : String := ""
  initializer : Option String := none
  brief : DocText := {}
  detailed : DocText := {}
  deriving DecidableEq, Repr

/-- A member as it is declared. -/
structure NativeMemberRecord where
  kind : String := ""
  name : String := ""
  rawType : String := ""
  /-- The parameter list as it is written. -/
  rawArguments : String := ""
  params : List NativeParamRecord := []
  enumValues : List EnumValueRecord := []
  isStatic : Bool := false
  brief : DocText := {}
  detailed : DocText := {}
  deriving DecidableEq, Repr

/-- A documented namespace, type or page. -/
structure NativeRecord where
  /-- What identifies the record within its documentation. -/
  id : String := ""
  kind : String := ""
  name : Option String := none
  language : Option String := none
  members : List NativeMemberRecord := []
  baseNames : List String := []
  derivedNames : List String := []
  innerClasses : List String := []
  innerNamespaces : List String := []
  templateParams : List String := []
  brief : DocText := {}
  detailed : DocText := {}
  deriving DecidableEq, Repr

/-! ## Managed sources -/

/-- A parameter as it is reflected. -/
structure ManagedParamRecord where
  name : String := ""
  typeName : String := ""
  isOut : Bool := false
  isOptional : Bool := false
  description : DocText := {}
  deriving DecidableEq, Repr

/-- A member as it is reflected. -/
structure ManagedMemberRecord where
  kind : String := ""
  name : String := ""
  typeName : String := ""
  params : List ManagedParamRecord := []
  isStatic : Bool := false
  /-- The value of a constant of an enumeration. -/
  value : Option String := none
  summary : DocText := {}
  remarks : DocText := {}
  deriving DecidableEq, Repr

/-- A reflected type. -/
structure ManagedRecord where
  /-- The name within the namespace; a plus sign leads to a nested type and a backtick to the number
  of type parameters. -/
  name : Option String := none
  scope : String := ""
  kind : String := ""
  baseType : Option String := none
  interfaces : List String := []
  genericParams : List String := []
  isSealed : Bool := false
  isStatic : Bool := false
  members : List ManagedMemberRecord := []
  summary : DocText := {}
  remarks : DocText := {}
  deriving DecidableEq, Repr

end TypeAtlas
