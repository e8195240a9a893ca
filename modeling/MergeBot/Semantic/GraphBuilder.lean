import MergeBot.Foundation.Runs
import MergeBot.Semantic.AccessLabels
import MergeBot.Semantic.SyntaxTree

/-!
# Building the graph of a revision

`GraphBuilder` makes semantic nodes of a syntax tree, from the top down. Every node that it makes
becomes a vertex and is inserted below its parent; only access specifiers become children without
a vertex. What the language server and the patterns of the parser say of a syntax node is a
parameter, `Extraction`.

Assertions are off, as in a release build: a node that should not be there is passed over. An
empty optional throws, and the result is `none`.
-/

namespace MergeBot

open Foundation

/-- Names, signatures and references of syntax nodes, by the kind of the semantic node. -/
structure Extraction where
  describe : NodeKind → TsNode → SemanticNode
  displayName : NodeKind → TsNode → Text

/-- An edge from a composite node to a child, by their positions among the vertices. -/
structure ContainEdge where
  source : Nat
  target : Nat
  id : Nat
deriving DecidableEq, Repr

/-- The objects that have been made, and the graph. -/
structure GraphBuilder where
  heap : Heap
  fields : PrintedFields
  /-- The text of an access specifier. -/
  specifierText : NodeRef → Text
  nextRef : NodeRef
  nodeCount : Nat := 0
  edgeCount : Nat := 0
  vertices : List NodeRef := []
  edges : List ContainEdge := []

/-- A node that no other node knows. -/
structure SemanticNode.Fresh (record : SemanticNode) : Prop where
  parent : record.parent = none
  children : record.children = []
  real : record.isSynthetic = false
  kind : record.kind ≠ .accessSpecifier
  access : record.accessSpecifier = .none

/-- A node that is ready to be inserted, with what only printing reads. -/
structure NewNode where
  record : SemanticNode
  displayName : Text
  nsComment : Text := []
  startColumn : Nat
  fresh : record.Fresh

namespace GraphBuilder

/-! ## Insertion -/

variable (builder : GraphBuilder)

/-- Make an object, with the next number. -/
def make (node : NewNode) : GraphBuilder :=
  { builder with
    heap := builder.heap.update builder.nextRef { node.record with id := builder.nodeCount }
    fields := {
      displayName := Function.update builder.fields.displayName builder.nextRef node.displayName
      nsComment := Function.update builder.fields.nsComment builder.nextRef node.nsComment
      startColumn := Function.update builder.fields.startColumn builder.nextRef node.startColumn }
    nextRef := builder.nextRef + 1
    nodeCount := builder.nodeCount + 1 }

def addVertex (ref : NodeRef) : GraphBuilder :=
  { builder with vertices := builder.vertices ++ [ref] }

def addEdge (source target : Nat) : GraphBuilder :=
  { builder with
    edges := builder.edges ++ [⟨source, target, builder.edgeCount⟩]
    edgeCount := builder.edgeCount + 1 }

/-- Append to the children of a node. -/
def pushChild (parent child : NodeRef) : GraphBuilder :=
  { builder with
    heap := builder.heap.update parent
      { builder.heap parent with children := (builder.heap parent).children ++ [child] } }

def setParent (child parent : NodeRef) : GraphBuilder :=
  { builder with
    heap := builder.heap.update child { builder.heap child with parent := some parent } }

/-- A new node becomes a vertex, a child of its parent, and the end of an edge. -/
def insertToGraphAndParent (parent : NodeRef) (parentDesc : Nat) (node : NewNode) : GraphBuilder :=
  let cur := builder.nextRef
  let curDesc := builder.vertices.length
  ((((builder.make node).addVertex cur).addEdge parentDesc curDesc).setParent cur parent).pushChild
    parent cur

/-- An access specifier is a child of its type and nothing else. -/
def pushAccessSpecifier (type : NodeRef) (text : Text) : GraphBuilder :=
  let label := builder.nextRef
  { builder with
    heap := builder.heap.update label
      { id := -1, needToMerge := false, kind := .accessSpecifier, isSynthetic := true }
    specifierText := Function.update builder.specifierText label text
    nextRef := builder.nextRef + 1 }.pushChild type label

def setMemberAccessSpecifier (type : NodeRef) : GraphBuilder :=
  { builder with
    heap := TypeDeclNode.setMemberAccessSpecifier builder.specifierText builder.heap type }

/-! ## The nodes -/

/-- What a function that makes a node is given. -/
structure Site where
  isConflicting : Bool
  /-- The hash of the parent. -/
  parentSignatureHash : UInt64
  /-- The path of the file, relative to the sources. -/
  tuPath : String
  previous : List TsNode
  child : TsNode
  next : List TsNode

namespace Site

variable (extraction : Extraction) (site : Site)

/-- The comments in front of the node. -/
def comment : String :=
  String.ofList (getNodeComment (site.previous.map TsNode.sibling))

def followingEOLs : Int := site.child.getFollowingEOLs site.next

def textOf (node : TsNode) : String := String.ofList node.text

/-- What all nodes have in common that tell of the syntax node. -/
def described (kind : NodeKind) : SemanticNode :=
  { extraction.describe kind site.child with
    needToMerge := site.isConflicting
    kind := kind
    comment := site.comment
    accessSpecifier := .none
    isSynthetic := false
    sigUnchanged := false
    parent := none
    children := [] }

def named (kind : NodeKind) (record : SemanticNode) (fresh : record.Fresh) : NewNode where
  record := record
  displayName := extraction.displayName kind site.child
  startColumn := site.child.startPoint.column.toNat
  fresh := fresh

/-- A comment behind the closing brace, on its row. -/
def nsComment : Text :=
  match site.next.head? with
  | some commentNode =>
      if commentNode.type = .comment ∧ commentNode.startPoint.row = site.child.endPoint.row then
        commentNode.text
      else []
  | none => []

def parseNamespaceNode : Option NewNode := do
  let eols ← site.child.beforeFirstChildEOLs
  return { site.named extraction .namespace_
      { site.described extraction .namespace_ with
        beforeFirstChildEOL := eols
        tuPath := site.tuPath } ⟨rfl, rfl, rfl, nofun, rfl⟩ with
    nsComment := site.nsComment }

/-- The text of a textual node: an enumerator takes a comma, a type a semicolon. -/
def textContent : Text :=
  let content :=
    if site.child.type = .enumerator ∧
        site.next.head?.any fun nextSibling => ',' ∈ nextSibling.text then
      site.child.text ++ [',']
    else site.child.text
  if site.child.type ∈ [.classSpecifier, .structSpecifier, .unionSpecifier, .enumSpecifier] then
    content ++ [';']
  else content

def parseTextualNode : NewNode where
  record := {
    needToMerge := site.isConflicting
    kind := .textual
    qualifiedName := String.ofList site.textContent
    originalSignature := String.ofList site.textContent
    comment := site.comment
    body := String.ofList site.textContent
    parentSignatureHash := site.parentSignatureHash
    followingEOL := site.followingEOLs
    tuPath := site.tuPath }
  displayName := site.textContent
  startColumn := site.child.startPoint.column.toNat
  fresh := ⟨rfl, rfl, rfl, nofun, rfl⟩

def parseOrphanComment (text : Text) (followingEOLs : Int) : NewNode where
  record := {
    needToMerge := site.isConflicting
    kind := .orphanComment
    qualifiedName := String.ofList text
    originalSignature := String.ofList text
    body := String.ofList text
    parentSignatureHash := site.parentSignatureHash
    followingEOL := followingEOLs }
  displayName := text
  startColumn := site.child.startPoint.column.toNat
  fresh := ⟨rfl, rfl, rfl, nofun, rfl⟩

/-- Whether the child is a field or only declares is not passed on, so that `isFieldDecl` has its
default. -/
def parseFieldDeclarationNode : NewNode :=
  site.named extraction .fieldDeclaration
    { site.described extraction .fieldDeclaration with
      originalSignature := textOf site.child
      body := textOf site.child
      followingEOL := site.followingEOLs
      parentSignatureHash := site.parentSignatureHash
      isFieldDecl := true } ⟨rfl, rfl, rfl, nofun, rfl⟩

def parseLinkageSpecNode : Option NewNode := do
  let eols ← site.child.beforeFirstChildEOLs
  return {
    record := {
      needToMerge := site.isConflicting
      kind := .linkageSpecList
      qualifiedName := "extern \"C\" \x7b\x7d"
      originalSignature := "extern \"C\" "
      comment := site.comment
      beforeFirstChildEOL := eols
      parentSignatureHash := site.parentSignatureHash }
    displayName := "extern \"C\" \x7b\x7d".toList
    startColumn := site.child.startPoint.column.toNat
    fresh := ⟨rfl, rfl, rfl, nofun, rfl⟩ }

def parseEnumNode : Option NewNode := do
  let eols ← site.child.beforeFirstChildEOLs
  return site.named extraction .enum
    { site.described extraction .enum with
      body := textOf site.child
      beforeFirstChildEOL := eols } ⟨rfl, rfl, rfl, nofun, rfl⟩

/-- The node of a class, whose body may be in a node of its own behind a template's
parameters. -/
def parseTypeDeclNode (realNode : TsNode) : Option NewNode := do
  let eols ← realNode.beforeFirstChildEOLs
  return site.named extraction .type
    { site.described extraction .type with beforeFirstChildEOL := eols }
    ⟨rfl, rfl, rfl, nofun, rfl⟩

/-- The node of a function with the body of the real node. -/
def parseFunction (kind : NodeKind) (isNode : kind ≠ .accessSpecifier) (realNode : TsNode) :
    NewNode :=
  site.named extraction kind
    { site.described extraction kind with
      body := ((realNode.getChildByFieldName .body).map textOf).getD ""
      followingEOL := site.followingEOLs
      parentSignatureHash := site.parentSignatureHash } ⟨rfl, rfl, rfl, isNode, rfl⟩

/-- A function definition must have a declarator. -/
def parseFuncDefNode (realNode : TsNode) : Option NewNode := do
  let _ ← realNode.getChildByFieldName .declarator
  return site.parseFunction extraction .funcDef nofun realNode

def parseFuncOperatorCastNode : NewNode :=
  site.parseFunction extraction .funcOperatorCast nofun site.child

def parseFuncSpecialMemberNode : NewNode :=
  site.parseFunction extraction .funcSpecialMember nofun site.child

end Site

/-! ## The loop over the children -/

def CompositeTypes : List TsKind := [.namespaceDefinition]

def TerminalTypes : List TsKind :=
  [.accessSpecifier, .preprocIfdef, .preprocDef, .preprocIf, .preprocFunctionDef, .preprocCall,
    .preprocInclude, .usingDeclaration, .comment, .typeDefinition, .aliasDeclaration, .enumerator,
    .declaration, .staticAssertDeclaration, .fieldDeclaration, .templateDeclaration,
    .friendDeclaration, .functionDefinition]

def ComplexTypes : List TsKind :=
  [.classSpecifier, .structSpecifier, .unionSpecifier, .enumSpecifier, .linkageSpecification]

def IsClassSpecifier (type : TsKind) : Bool :=
  type = .classSpecifier || type = .structSpecifier || type = .unionSpecifier

def IsTextualNode (type : TsKind) : Bool :=
  type ∈ [.preprocIfdef, .preprocDef, .usingDeclaration, .typeDefinition, .aliasDeclaration,
    .enumerator, .staticAssertDeclaration, .friendDeclaration]

/-- The first child of a template that is a class or a function definition, and whether it is a
class. -/
def templateKind (child : TsNode) : Option (TsNode × Bool) :=
  child.children.findSome? fun childChild =>
    if IsClassSpecifier childChild.type then some (childChild, true)
    else if childChild.type = .functionDefinition then some (childChild, false)
    else none

section Loop

variable (std : StdHash) (extraction : Extraction)

/-- A recursive call: the builder, a composite node with its vertex, and the node of the syntax
tree with its children. -/
abbrev ParseBody := GraphBuilder → NodeRef → Nat → TsNode → Option GraphBuilder

variable (parseBody : ParseBody) (sRoot : NodeRef) (sRootDesc : Nat)

/-- Insert a node without children. -/
def insertTerminal (builder : GraphBuilder) (node : NewNode) : GraphBuilder :=
  builder.insertToGraphAndParent sRoot sRootDesc node

/-- Insert a composite node and go on with the children of its body. -/
def insertComposite (builder : GraphBuilder) (node : NewNode) (realNode : TsNode) :
    Option GraphBuilder := do
  let cur := builder.nextRef
  let curDesc := builder.vertices.length
  let body ← realNode.getChildByFieldName .body
  parseBody (builder.insertToGraphAndParent sRoot sRootDesc node) cur curDesc body

/-- Insert a type; its members get their access when all of them are there. -/
def insertType (builder : GraphBuilder) (node : NewNode) (realNode : TsNode) :
    Option GraphBuilder := do
  let cur := builder.nextRef
  let built ← insertComposite parseBody sRoot sRootDesc builder node realNode
  return built.setMemberAccessSpecifier cur

/-- A namespace, and the comment behind it that is skipped. -/
def insertNamespace (builder : GraphBuilder) (site : Site) : Option (GraphBuilder × Nat) := do
  let node ← site.parseNamespaceNode extraction
  let built ← insertComposite parseBody sRoot sRootDesc builder node site.child
  return (built, if node.nsComment ≠ [] then 1 else 0)

def insertFunction (builder : GraphBuilder) (site : Site) : Option (GraphBuilder × Nat) :=
  match site.child.getChildByFieldName .type with
  | some type =>
      if type.text = "namespace".toList then
        -- an inline namespace is parsed as a function definition
        insertNamespace extraction parseBody sRoot sRootDesc builder site
      else do
        let node ← site.parseFuncDefNode extraction site.child
        return (insertTerminal sRoot sRootDesc builder node, 0)
  | none =>
      if (site.child.getChildByFieldName .declarator).any fun declarator =>
          declarator.type = .operatorCast then
        some (insertTerminal sRoot sRootDesc builder
          (site.parseFuncOperatorCastNode extraction), 0)
      else
        some (insertTerminal sRoot sRootDesc builder
          (site.parseFuncSpecialMemberNode extraction), 0)

def insertTemplate (builder : GraphBuilder) (site : Site) : Option (GraphBuilder × Nat) :=
  match templateKind site.child with
  | some (realNode, isClass) =>
      if (realNode.getChildByFieldName .body).isNone then
        some (insertTerminal sRoot sRootDesc builder site.parseTextualNode, 0)
      else if isClass then do
        let node ← site.parseTypeDeclNode extraction realNode
        let built ← insertType parseBody sRoot sRootDesc builder node realNode
        return (built, 0)
      else do
        let node ← site.parseFuncDefNode extraction realNode
        return (insertTerminal sRoot sRootDesc builder node, 0)
  | none => some (builder, 0)

/-- A comment becomes an orphan with those behind it, or is left to the node behind it. -/
def insertComment (builder : GraphBuilder) (site : Site) : GraphBuilder × Nat :=
  let prevNode := site.previous.head?.map TsNode.sibling
  let (orphan, comment, commentCnt) :=
    getComment prevNode site.child.sibling (site.next.map TsNode.sibling)
  if orphan then
    let followingEOLs := if onRowOf prevNode site.child.sibling then 0 else 1
    (insertTerminal sRoot sRootDesc builder (site.parseOrphanComment comment followingEOLs),
      commentCnt - 1)
  else (builder, 0)

def insertComplex (builder : GraphBuilder) (site : Site) : Option (GraphBuilder × Nat) :=
  let textual := some (insertTerminal sRoot sRootDesc builder site.parseTextualNode, 0)
  match site.child.getChildByFieldName .body with
  | none => if site.child.type = .linkageSpecification then none else textual
  | some body =>
      if IsClassSpecifier site.child.type then do
        let node ← site.parseTypeDeclNode extraction site.child
        let built ← insertType parseBody sRoot sRootDesc builder node site.child
        return (built, 0)
      else if site.child.type = .linkageSpecification then
        if body.type = .declaration ∨ body.type = .functionDefinition then textual
        else do
          let node ← site.parseLinkageSpecNode
          let built ← insertComposite parseBody sRoot sRootDesc builder node site.child
          return (built, 0)
      else do
        let node ← site.parseEnumNode extraction
        let built ← insertComposite parseBody sRoot sRootDesc builder node site.child
        return (built, 0)

/-- One child, and how many of the siblings behind it are skipped. -/
def parseChild (builder : GraphBuilder) (site : Site) : Option (GraphBuilder × Nat) :=
  let childType := site.child.type
  if childType ∈ CompositeTypes then
    insertNamespace extraction parseBody sRoot sRootDesc builder site
  else if childType ∈ TerminalTypes then
    if IsTextualNode childType then
      some (insertTerminal sRoot sRootDesc builder site.parseTextualNode, 0)
    else if childType = .comment then some (insertComment sRoot sRootDesc builder site)
    else if childType = .fieldDeclaration ∨ childType = .declaration then
      some (insertTerminal sRoot sRootDesc builder (site.parseFieldDeclarationNode extraction), 0)
    else if childType = .functionDefinition then
      insertFunction extraction parseBody sRoot sRootDesc builder site
    else if childType = .templateDeclaration then
      insertTemplate extraction parseBody sRoot sRootDesc builder site
    else if childType = .accessSpecifier then
      if (builder.heap sRoot).kind = .type then
        some (builder.pushAccessSpecifier sRoot site.child.text, 0)
      else some (builder, 0)
    else some (builder, 0)
  else if childType ∈ ComplexTypes then
    insertComplex extraction parseBody sRoot sRootDesc builder site
  else some (builder, 0)

variable (isConflicting : Bool) (tuPath : String)

/-- The site of a child, at the present state of its parent. -/
def siteAt (builder : GraphBuilder) (previous : List TsNode) (child : TsNode)
    (next : List TsNode) : Site where
  isConflicting := isConflicting
  parentSignatureHash := builder.heap.hash std sRoot
  tuPath := tuPath
  previous := previous
  child := child
  next := next

/-- The children from one on; the first `skipped` are passed over. -/
def parseChildren : GraphBuilder → List TsNode → Nat → List TsNode → Option GraphBuilder
  | builder, _, _, [] => some builder
  | builder, previous, skipped + 1, child :: rest =>
      parseChildren builder (child :: previous) skipped rest
  | builder, previous, 0, child :: rest => do
      let (built, skipped) ← parseChild extraction parseBody sRoot sRootDesc builder
        (siteAt std sRoot isConflicting tuPath builder previous child rest)
      parseChildren built (child :: previous) skipped rest

/-- The children of a node from an index on. The fuel bounds the depth of the recursion. -/
def parseCompositeNode : Nat → GraphBuilder → NodeRef → Nat → TsNode → Nat →
    Option GraphBuilder
  | 0, _, _, _, _, _ => none
  | fuel + 1, builder, sRoot, sRootDesc, root, firstChildIdx =>
      parseChildren std extraction
        (fun built cur curDesc body => parseCompositeNode fuel built cur curDesc body 0)
        sRoot sRootDesc isConflicting tuPath builder (root.children.take firstChildIdx).reverse 0
        (root.children.drop firstChildIdx)

end Loop

/-! ## Translation units -/

/-- The part of a path from the last dot on. -/
def extension? (path : Text) : Option Text :=
  if '.' ∈ path then some ('.' :: path.rtakeWhile fun c => c ≠ '.') else none

def IsCppSource (path : Text) : Bool :=
  (extension? path).any [".h".toList, ".hpp".toList, ".cc".toList, ".cp".toList, ".C".toList,
    ".cxx".toList, ".cpp".toList, ".c++".toList].contains

def IsCppHeader (path : Text) : Bool :=
  (extension? path).any [".h".toList, ".hpp".toList].contains

def IsCSource (path : Text) : Bool :=
  (extension? path).any [".h".toList, ".c".toList].contains

/-- What a builder is made for. -/
structure BuildTask where
  /-- Where the sources of the side are, with a separator at the end. -/
  sourceDir : Text
  projectPath : Text
  conflictPaths : List Text
  /-- The paths of the sources, relative to their directory. -/
  sourceList : List Text
  /-- The syntax tree of a file; `none` when it does not exist or cannot be parsed. -/
  parse : Text → Option TsNode

namespace BuildTask

variable (task : BuildTask)

def filePath (path : Text) : Text := task.sourceDir ++ path

def isConflicting (path : Text) : Bool := task.conflictPaths.contains path

/-- The header guard; a file that is no header has none. -/
def guarded (path : Text) (root : TsNode) (commentCnt : Nat) : Option TsNode.HeaderGuard :=
  if IsCppHeader (task.filePath path) then root.getHeaderGuard commentCnt
  else some { beforeBodyChildCnt := commentCnt, root := root }

/-- The node of a file, the syntax node with the children that are left, and how many are not. -/
def parseTranslationUnit (path : Text) (root : TsNode) : Option (NewNode × TsNode × Nat) := do
  let (commentCnt, comment) := root.getTranslationUnitComment
  let guarded ← task.guarded path root commentCnt
  let (frontDecls, frontDeclCnt) := guarded.root.getFrontDecls guarded.beforeBodyChildCnt
  let headerGuard := if guarded.guardLines = [] then [[], [], []] else guarded.guardLines
  return ({
    record := {
      needToMerge := task.isConflicting path
      kind := .translationUnit
      qualifiedName := String.ofList (task.projectPath ++ path)
      originalSignature := String.ofList (task.filePath path)
      comment := String.ofList comment
      usr := String.ofList path
      traditionGuard := guarded.traditionGuard
      headerGuard := headerGuard.map String.ofList
      frontDecls := frontDecls.map String.ofList
      beforeFirstChildEOL := 1 }
    displayName := path
    startColumn := 0
    fresh := ⟨rfl, rfl, rfl, nofun, rfl⟩ }, guarded.root, frontDeclCnt)

variable (std : StdHash) (extraction : Extraction)

def processCppTranslationUnit (builder : GraphBuilder) (path : Text) (root : TsNode) :
    Option GraphBuilder := do
  let (node, turoot, frontDeclCnt) ← task.parseTranslationUnit path root
  let tu := builder.nextRef
  let tuVertex := builder.vertices.length
  parseCompositeNode std extraction (task.isConflicting path) (String.ofList path) root.height
    ((builder.make node).addVertex tu) tu tuVertex turoot frontDeclCnt

def processTranslationUnit (builder : GraphBuilder) (path : Text) : Option GraphBuilder :=
  match task.parse (task.filePath path) with
  | some root =>
      if IsCppSource path || IsCSource path then
        task.processCppTranslationUnit std extraction builder path root
      else some builder
  | none => some builder

/-- The loop over the sources. -/
def build (builder : GraphBuilder) : Option GraphBuilder :=
  task.sourceList.foldlM (task.processTranslationUnit std extraction) builder

end BuildTask

end GraphBuilder

end MergeBot
