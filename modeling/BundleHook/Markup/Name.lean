import BundleHook.Markup.Fault

/-!
# Names and namespaces

A name is a local part in a namespace. A document binds prefixes to namespaces, each binding in
force inside the element that makes it; the empty prefix stands for names without one.
-/

namespace BundleHook.Markup

/-- A name in a namespace; the empty namespace is no namespace. -/
structure Name where
  uri : Text
  part : Text
  deriving DecidableEq, Repr

def Name.plain (word : String) : Name := ⟨[], word.toList⟩

def Name.label (name : Name) : Text :=
  if name.uri.isEmpty then name.part else '{' :: name.uri ++ '}' :: name.part

/-- The name of a namespace from what follows its scheme. -/
def uriOf (rest : String) : Text := "http://".toList ++ rest.toList

def xmlUri : Text := uriOf "www.w3.org/XML/1998/namespace"

def xmlnsUri : Text := uriOf "www.w3.org/2000/xmlns/"

/-- What each prefix is bound to, innermost binding first. -/
abbrev Bindings := List (Text × Text)

def Bindings.initial : Bindings := [("xml".toList, xmlUri)]

def splitName (written : Text) : Option Text × Text :=
  match written.dropWhile (· != ':') with
  | _ :: part => (some (written.takeWhile (· != ':')), part)
  | [] => (none, written)

/-- Does the attribute declare a namespace, and for which prefix? -/
def declaredPrefix? (written : Text) : Option Text :=
  if written = "xmlns".toList then some []
  else if "xmlns:".toList.isPrefixOf written then some (written.drop 6)
  else none

/-- Characters that the name of a namespace may hold although they bracket it in labels. -/
def isLabelMark (c : Char) : Bool := c == '}'

/-- Binds a prefix, unless the binding is reserved. -/
def Bindings.bind (bindings : Bindings) (short uri : Text) : Except Flaw Bindings :=
  let isXml := short = "xml".toList
  if uri.isEmpty && !short.isEmpty then .error .undeclaredPrefix
  else if short = "xmlns".toList then .error .reservedXmlnsPrefix
  else if uri.any isLabelMark then .error .unexpected
  else if isXml && uri ≠ xmlUri then .error .reservedXmlPrefix
  else if !isXml && uri = xmlUri then .error .reservedNamespace
  else if uri = xmlnsUri then .error .reservedNamespace
  else .ok ((short, uri) :: bindings)

def Bindings.find? (bindings : Bindings) (short : Text) : Option Text :=
  (bindings.lookup short).bind fun uri => if uri.isEmpty then none else some uri

def Bindings.elementName (bindings : Bindings) (written : Text) : Except Flaw Name :=
  match splitName written with
  | (some short, part) =>
    match bindings.find? short with
    | some uri => .ok ⟨uri, part⟩
    | none => .error .unboundPrefix
  | (none, part) => .ok ⟨(bindings.find? []).getD [], part⟩

/-- The name of an attribute: without a prefix it is in no namespace. -/
def Bindings.attributeName (bindings : Bindings) (written : Text) : Except Flaw Name :=
  match splitName written with
  | (some _, _) => bindings.elementName written
  | (none, part) => .ok ⟨[], part⟩

end BundleHook.Markup
