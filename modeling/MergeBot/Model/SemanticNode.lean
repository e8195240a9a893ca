import Mathlib.Data.List.Basic
import MergeBot.Foundation.CStrings

/-!
# Semantic nodes and their signatures

A graph node is one record with the fields the matchers and the merger read,
whatever class the source gives it; `NodeKind` selects the ones that count.
Nodes are shared and rewritten in place, so they live in a `Heap` and are named
by `NodeRef`s.

A node's identity is `hashSignature`: `signature` lists what the class of the
node hashes, in the order it is combined. The standard library's hash functions
are a parameter, `StdHash`.
-/

namespace MergeBot

open Foundation

/-- Node kinds, with the markers that bound the composite and the terminal ones. -/
inductive NodeKind
  | node
  | compositeNode
  | translationUnit
  | linkageSpecList
  | namespace_
  | type
  | enum
  | lastCompositeNode
  | terminalNode
  | fieldDeclaration
  | funcDef
  | funcOperatorCast
  | funcSpecialMember
  | orphanComment
  | textual
  | accessSpecifier
  | lastTerminalNode
  | count
deriving DecidableEq, Repr, Inhabited

namespace NodeKind

/-- The underlying number of an enumerator. -/
def toNat : NodeKind → Nat
  | node => 0
  | compositeNode => 1
  | translationUnit => 2
  | linkageSpecList => 3
  | namespace_ => 4
  | type => 5
  | enum => 6
  | lastCompositeNode => 7
  | terminalNode => 8
  | fieldDeclaration => 9
  | funcDef => 10
  | funcOperatorCast => 11
  | funcSpecialMember => 12
  | orphanComment => 13
  | textual => 14
  | accessSpecifier => 15
  | lastTerminalNode => 16
  | count => 17

/-- `CompositeNode::classof`. -/
def isComposite (kind : NodeKind) : Bool :=
  compositeNode.toNat ≤ kind.toNat && kind.toNat ≤ lastCompositeNode.toNat

/-- `TerminalNode::classof`. -/
def isTerminal (kind : NodeKind) : Bool :=
  terminalNode.toNat ≤ kind.toNat && kind.toNat ≤ lastTerminalNode.toNat

/-- The kinds whose signature parts are merged separately. -/
def isFunction : NodeKind → Bool
  | funcDef | funcOperatorCast | funcSpecialMember => true
  | _ => false

end NodeKind

/-- Visibility of a class member. -/
inductive AccessSpecifierKind
  | none
  | default_
  | public_
  | protected_
  | private_
deriving DecidableEq, Repr, Inhabited

/-- How a special member function is defined. -/
inductive DefinitionType
  | defaulted
  | deleted
  | plain
deriving DecidableEq, Repr, Inhabited

/-- The identity of a node object; several lists may share it. -/
abbrev NodeRef := Nat

/-- The fields of all node classes that matching and merging use. -/
structure SemanticNode where
  id : Int := 0
  needToMerge : Bool := true
  kind : NodeKind := .node
  qualifiedName : String := ""
  originalSignature : String := ""
  comment : String := ""
  usr : String := ""
  followingEOL : Int := 0
  accessSpecifier : AccessSpecifierKind := .none
  isSynthetic : Bool := false
  /-- The owning node; `none` models an expired or unset weak pointer. -/
  parent : Option NodeRef := none
  children : List NodeRef := []
  -- composite nodes
  beforeFirstChildEOL : Int := 0
  -- translation units
  traditionGuard : Bool := true
  headerGuard : List String := []
  frontDecls : List String := []
  -- namespaces
  anonymous : Bool := false
  tuPath : String := ""
  -- linkage specifications
  parentSignatureHash : UInt64 := 0
  -- enumerations
  enumBase : String := ""
  -- terminal nodes
  body : String := ""
  sigUnchanged : Bool := false
  -- field declarations
  declarator : String := ""
  isFieldDecl : Bool := true
  -- functions, special member functions and conversion operators
  templateParameterList : String := ""
  attrs : String := ""
  beforeFuncName : String := ""
  parameterList : List String := []
  afterParameterList : String := ""
  initList : List String := []
  parameterTypes : List String := []
  defType : DefinitionType := .plain
deriving DecidableEq, Repr, Inhabited

/-- One value combined into a signature hash. -/
inductive HashInput
  | kind (value : NodeKind)
  | text (value : String)
  | texts (values : List String)
  | size (value : UInt64)
  | int (value : Int)
  | defType (value : DefinitionType)
deriving DecidableEq, Repr

/-- The `std::hash` instances that signatures use. -/
structure StdHash where
  kind : NodeKind → UInt64
  text : String → UInt64
  size : UInt64 → UInt64
  int : Int → UInt64
  defType : DefinitionType → UInt64

/-- Mix a hash into the seed. -/
def hashCombine (seed value : UInt64) : UInt64 :=
  seed ^^^ (value + (0x9e3779b9 : UInt64) + (seed <<< (6 : UInt64)) + (seed >>> (2 : UInt64)))

/-- Hash of a sequence of strings. -/
def vectorHash (std : StdHash) (values : List String) : UInt64 :=
  values.foldl (fun seed value => hashCombine seed (std.text value)) 0

/-- The hash that is combined for one signature input. -/
def StdHash.input (std : StdHash) : HashInput → UInt64
  | .kind value => std.kind value
  | .text value => std.text value
  | .texts values => std.size (vectorHash std values)
  | .size value => std.size value
  | .int value => std.int value
  | .defType value => std.defType value

/-- A concrete choice of hash functions: identities, and a polynomial for strings. -/
def StdHash.polynomial : StdHash where
  kind value := value.toNat.toUInt64
  text value := value.toList.foldl (fun seed c => 31 * seed + c.toNat.toUInt64) 7
  size value := value
  int value := value.toNat.toUInt64
  defType
    | .defaulted => 0
    | .deleted => 1
    | .plain => 2

/-- Remove all white space. -/
def stripSpace (text : String) : String :=
  String.ofList (text.toList.filter fun c => !isSpace c)

namespace SemanticNode

/-- What `hashSignature` of the node's class combines, in order. -/
def signature (node : SemanticNode) : List HashInput :=
  match node.kind with
  | .translationUnit => [.kind node.kind, .text node.qualifiedName]
  | .linkageSpecList =>
      [.kind node.kind, .size node.parentSignatureHash, .text node.qualifiedName]
  | .namespace_ =>
      [.kind node.kind, .text node.tuPath, .text node.qualifiedName] ++
        if node.anonymous then [.int node.id] else []
  | .fieldDeclaration =>
      if node.usr ≠ "" then [.kind node.kind, .text node.usr]
      else if node.isFieldDecl ∧ node.qualifiedName ≠ "" then
        [.kind node.kind, .text node.qualifiedName]
      else [.kind node.kind, .text node.body]
  | .funcDef =>
      if node.usr ≠ "" then [.kind node.kind, .text node.usr]
      else [.kind node.kind, .text node.qualifiedName, .texts node.parameterTypes,
        .text (stripSpace node.afterParameterList)]
  | .funcOperatorCast =>
      if node.usr ≠ "" then [.kind node.kind, .text node.usr]
      else [.kind node.kind, .text node.qualifiedName,
        .text (stripSpace node.afterParameterList)]
  | .funcSpecialMember =>
      if node.usr ≠ "" then [.kind node.kind, .text node.usr]
      else [.kind node.kind, .text node.qualifiedName, .texts node.parameterTypes,
        .defType node.defType]
  | .textual => [.text node.body]
  | kind =>
      if kind.isComposite then
        if node.usr ≠ "" then [.kind kind, .text node.usr]
        else [.kind kind, .text node.qualifiedName]
      else [.kind kind, .text node.body]

/-- The node's identity in tables and sibling searches. -/
def hashSignature (std : StdHash) (node : SemanticNode) : UInt64 :=
  node.signature.foldl (fun seed input => hashCombine seed (std.input input)) 1

/-- Records with the same view agree on every field that the view retains. -/
theorem read_of_view {β : Type} {view : SemanticNode → SemanticNode} {first second : SemanticNode}
    (same : view first = view second) (field : SemanticNode → β)
    (retained : ∀ node, field (view node) = field node) : field first = field second := by
  rw [← retained first, same, retained]

end SemanticNode

/-- The node objects at one moment. -/
def Heap := NodeRef → SemanticNode

namespace Heap

/-- Overwrite one node. -/
def update (heap : Heap) (ref : NodeRef) (node : SemanticNode) : Heap :=
  fun other => if other = ref then node else heap other

@[simp]
theorem update_self (heap : Heap) (ref : NodeRef) (node : SemanticNode) :
    heap.update ref node ref = node := by
  simp [update]

@[simp]
theorem update_other {heap : Heap} {ref other : NodeRef} {node : SemanticNode}
    (distinct : other ≠ ref) : heap.update ref node other = heap other := by
  simp [update, distinct]

/-- The present identity of a node. -/
def hash (std : StdHash) (heap : Heap) (ref : NodeRef) : UInt64 :=
  (heap ref).hashSignature std

/-- Identity depends on the record alone. -/
theorem hash_congr {std : StdHash} {heap heap' : Heap} {ref ref' : NodeRef}
    (same : heap ref = heap' ref') : heap.hash std ref = heap'.hash std ref' := by
  simp [hash, same]

end Heap

end MergeBot
