import BundleHook.Markup.Layout

/-!
# Writing a tree

The root declares every namespace of the tree, each under a well-known prefix or one numbered by the
order in which the namespaces occur. The reserved namespace of the language is never declared.
-/

namespace BundleHook.Markup

def wellKnownPrefixes : List (Text × Text) :=
  [(xmlUri, "xml".toList),
   (uriOf "www.w3.org/1999/xhtml", "html".toList),
   (uriOf "www.w3.org/1999/02/22-rdf-syntax-ns#", "rdf".toList),
   (uriOf "schemas.xmlsoap.org/wsdl/", "wsdl".toList),
   (uriOf "www.w3.org/2001/XMLSchema", "xs".toList),
   (uriOf "www.w3.org/2001/XMLSchema-instance", "xsi".toList),
   (uriOf "purl.org/dc/elements/1.1/", "dc".toList)]

/-- The prefixes of the namespaces to declare, in order of their first use. -/
abbrev Declarations := List (Text × Text)

namespace Declarations

/-- The declarations with that of the name's namespace. -/
def addName (d : Declarations) (name : Name) : Declarations :=
  if name.uri.isEmpty || name.uri = xmlUri || (d.lookup name.uri).isSome then d
  else
    d ++ [(name.uri,
      (wellKnownPrefixes.lookup name.uri).getD ('n' :: 's' :: Nat.toDigits 10 d.length))]

mutual

def addNode (d : Declarations) : Node → Declarations
  | .element name attributes _ children _ =>
    addNodes (attributes.foldl (fun d (name, _) => d.addName name) (d.addName name)) children
  | .comment _ _ => d

def addNodes (d : Declarations) : List Node → Declarations
  | [] => d
  | node :: others => addNodes (addNode d node) others

end

def ofNode (root : Node) : Declarations := addNode [] root

def write (d : Declarations) (name : Name) : Text :=
  if name.uri.isEmpty then name.part
  else if name.uri = xmlUri then "xml:".toList ++ name.part
  else (d.lookup name.uri).getD [] ++ ':' :: name.part

end Declarations

def escapeInText (c : Char) : Text :=
  if c = '&' then "&amp;".toList
  else if c = '<' then "&lt;".toList
  else if c = '>' then "&gt;".toList
  else [c]

def escapeInValue (c : Char) : Text :=
  if c = '"' then "&quot;".toList
  else if c = '\r' then "&#13;".toList
  else if c = '\n' then "&#10;".toList
  else if c = '\t' then "&#09;".toList
  else escapeInText c

def writeAttribute (name value : Text) : Text :=
  ' ' :: name ++ '=' :: '"' :: value.flatMap escapeInValue ++ ['"']

/-- The declarations as attributes, in the order of their prefixes. -/
def Declarations.writeAll (d : Declarations) : Text :=
  (d.mergeSort fun x y => !decide (y.2 < x.2)).flatMap fun (uri, short) =>
    writeAttribute ("xmlns:".toList ++ short) uri

namespace Node

mutual

/-- The node in markup; `head` stands behind the name in its start tag. -/
def write (d : Declarations) (head : Text) : Node → Text
  | element name attributes lead children tail =>
    let written := d.write name
    let start := '<' :: written ++ head ++
      attributes.flatMap fun (name, value) => writeAttribute (d.write name) value
    let inside := lead.flatMap escapeInText ++ writeAll d children
    let whole :=
      if lead.isEmpty && children.isEmpty then start ++ [' ', '/', '>']
      else start ++ '>' :: inside ++ '<' :: '/' :: written ++ ['>']
    whole ++ tail.flatMap escapeInText
  | comment body tail => "<!--".toList ++ body ++ "-->".toList ++ tail.flatMap escapeInText

/-- Nodes in markup, one after the other. -/
def writeAll (d : Declarations) : List Node → Text
  | [] => []
  | node :: others => write d [] node ++ writeAll d others

end

def render (root : Node) : Text :=
  let d := Declarations.ofNode root
  root.write d d.writeAll

end Node

end BundleHook.Markup
