import Mathlib.Data.List.DropRight
import MergeBot.Semantic.CommentOwners

/-!
# Syntax trees

A node of the syntax tree has the type that the grammar gives it, its text and place in the file,
the field it has in its parent, and its children, tokens among them. A node does not know its
siblings: a function that looks at them takes the list of those behind it or in front of it, the
nearest first.
-/

namespace MergeBot

/-- The types of nodes that the builder of the graph asks for, and all others by name. -/
inductive TsKind
  | translationUnit
  | namespaceDefinition
  | accessSpecifier
  | preprocIfdef
  | preprocDef
  | preprocIf
  | preprocFunctionDef
  | preprocCall
  | preprocInclude
  | usingDeclaration
  | comment
  | typeDefinition
  | aliasDeclaration
  | enumerator
  | declaration
  | staticAssertDeclaration
  | fieldDeclaration
  | templateDeclaration
  | friendDeclaration
  | functionDefinition
  | classSpecifier
  | structSpecifier
  | unionSpecifier
  | enumSpecifier
  | linkageSpecification
  | operatorCast
  | other (name : Text)
deriving DecidableEq, Repr

/-- The types whose names begin with `preproc`. -/
def TsKind.isPreproc : TsKind → Bool
  | preprocIfdef | preprocDef | preprocIf | preprocFunctionDef | preprocCall | preprocInclude =>
      true
  | other name => "preproc".toList.isPrefixOf name
  | _ => false

/-- The fields that are asked for. -/
inductive TsField
  | body
  | type
  | declarator
  | other (name : Text)
deriving DecidableEq, Repr

/-- A position in a file. -/
structure TsPoint where
  row : UInt32
  column : UInt32
deriving DecidableEq, Repr

/-- A node of the syntax tree. -/
inductive TsNode
  | mk (type : TsKind) (isNamed : Bool) (text : Text) (startPoint endPoint : TsPoint)
      (field : Option TsField) (children : List TsNode)

namespace TsNode

def type : TsNode → TsKind
  | mk type _ _ _ _ _ _ => type

def isNamed : TsNode → Bool
  | mk _ isNamed _ _ _ _ _ => isNamed

def text : TsNode → Text
  | mk _ _ text _ _ _ _ => text

def startPoint : TsNode → TsPoint
  | mk _ _ _ startPoint _ _ _ => startPoint

def endPoint : TsNode → TsPoint
  | mk _ _ _ _ endPoint _ _ => endPoint

def field : TsNode → Option TsField
  | mk _ _ _ _ _ field _ => field

def children : TsNode → List TsNode
  | mk _ _ _ _ _ _ children => children

/-- The height of the tree. -/
def height : TsNode → Nat
  | mk _ _ _ _ _ _ children => heights children + 1
where
  heights : List TsNode → Nat
    | [] => 0
    | child :: rest => max (height child) (heights rest)

/-- The node and all nodes below it. -/
def nodes : TsNode → List TsNode
  | mk type isNamed text startPoint endPoint field children =>
      mk type isNamed text startPoint endPoint field children :: nodesOf children
where
  nodesOf : List TsNode → List TsNode
    | [] => []
    | child :: rest => nodes child ++ nodesOf rest

theorem height_lt {node child : TsNode} (isChild : child ∈ node.children) :
    child.height < node.height := by
  obtain ⟨_, _, _, _, _, _, children⟩ := node
  simp only [TsNode.children] at isChild
  have bounded : child.height ≤ height.heights children := by
    induction children with
    | nil => exact absurd isChild List.not_mem_nil
    | cons first rest inductionHypothesis =>
      rw [height.heights]
      rcases List.mem_cons.mp isChild with rfl | later
      · exact Nat.le_max_left _ _
      · exact (inductionHypothesis later).trans (Nat.le_max_right _ _)
  rw [height]
  omega

theorem self_mem_nodes (node : TsNode) : node ∈ node.nodes := by
  cases node
  rw [nodes]
  exact List.mem_cons_self

/-- What is below a child is below the node. -/
theorem nodes_subset {node child : TsNode} (isChild : child ∈ node.children) :
    child.nodes ⊆ node.nodes := by
  obtain ⟨_, _, _, _, _, _, children⟩ := node
  simp only [TsNode.children] at isChild
  have listed : child.nodes ⊆ nodes.nodesOf children := by
    induction children with
    | nil => exact absurd isChild List.not_mem_nil
    | cons first rest inductionHypothesis =>
      rw [nodes.nodesOf]
      rcases List.mem_cons.mp isChild with rfl | later
      · exact List.subset_append_left _ _
      · exact List.Subset.trans (inductionHypothesis later) (List.subset_append_right _ _)
  rw [nodes]
  exact List.Subset.trans listed (List.subset_cons_self _ _)

/-! ## What the parser's utilities say of a node -/

def getChildByFieldName (node : TsNode) (name : TsField) : Option TsNode :=
  node.children.find? fun child => child.field = some name

theorem mem_of_getChildByFieldName {node child : TsNode} {name : TsField}
    (found : node.getChildByFieldName name = some child) : child ∈ node.children :=
  List.mem_of_find?_eq_some found

/-- What the functions that own comments read of a node. -/
def sibling (node : TsNode) : Sibling where
  isComment := node.type = .comment
  text := node.text
  startRow := node.startPoint.row
  endRow := node.endPoint.row

/-- A difference of rows; it wraps, and is read as a signed number. -/
def rowOffset (later earlier : UInt32) : Int := (later - earlier).toInt32.toInt

/-- Rows from a composite node to the first named child of its body. -/
def beforeFirstChildEOLs (node : TsNode) : Option Int := do
  let bodyNode ← node.getChildByFieldName .body
  let offset :=
    match (bodyNode.children.filter isNamed).head? with
    | some firstChild => rowOffset firstChild.startPoint.row node.startPoint.row
    | none => rowOffset bodyNode.startPoint.row node.endPoint.row
  return max offset 0

/-- Rows from a node to the next sibling that is no semicolon and no opening brace. -/
def getFollowingEOLs (node : TsNode) (next : List TsNode) : Int :=
  match next.find? fun sibling =>
      sibling.type ≠ .other ";".toList ∧ sibling.type ≠ .other "\x7b".toList with
  | some nextSibling => max (rowOffset nextSibling.startPoint.row node.endPoint.row) 0
  | none => 0

/-- The comments that a file begins with, and their number. -/
def getTranslationUnitComment (root : TsNode) : Nat × Text :=
  let comments := root.children.takeWhile fun child => child.isNamed && child.type = .comment
  (comments.length, comments.flatMap fun comment => comment.text ++ ['\n'])

/-- A type that is declared and not defined. -/
def isTypeDecl (node : TsNode) : Bool :=
  (node.type = .classSpecifier || node.type = .structSpecifier || node.type = .unionSpecifier ||
    node.type = .enumSpecifier) && (node.getChildByFieldName .body).isNone

/-! ## The front of a translation unit -/

/-- `string_trim` with its default argument. -/
def stringTrim (text : Text) : Text :=
  let isWhitespace := fun c => c = ' ' || c = '\t' || c = '\n' || c = '\r'
  (text.dropWhile isWhitespace).rdropWhile isWhitespace

/-- The white space of a regular expression. -/
def isPatternSpace (c : Char) : Bool :=
  c = ' ' || c = '\t' || c = '\n' || c = '\r' || c = '\x0c'

/-- The text from a position on begins with the directive. -/
def beginsPragmaOnce : Text → Bool
  | '#' :: rest =>
      let name := rest.dropWhile isPatternSpace
      let argument := name.drop "pragma".length
      "pragma".toList.isPrefixOf name && argument.head?.any isPatternSpace &&
        "once".toList.isPrefixOf (argument.dropWhile isPatternSpace)
  | _ => false

/-- A partial match of the pattern for `#pragma once`. -/
def isPragmaOnce (text : Text) : Bool := text.tails.any beginsPragmaOnce

/-- What the header guard leaves: whether it is a traditional one, its lines, the number of
children in front of the body, and the node that has the body. -/
structure HeaderGuard where
  traditionGuard : Bool := false
  guardLines : List Text := []
  beforeBodyChildCnt : Nat
  root : TsNode

/-- The guard of a header. There must be a child behind the comments that the file begins
with. -/
def getHeaderGuard (root : TsNode) (beforeBodyChildCnt : Nat) : Option HeaderGuard := do
  let headerGuardNode ← root.children[beforeBodyChildCnt]?
  if headerGuardNode.type = .preprocCall && isPragmaOnce headerGuardNode.text then
    return {
      guardLines := [headerGuardNode.text]
      beforeBodyChildCnt := beforeBodyChildCnt + 1
      root := root }
  else if headerGuardNode.type = .preprocIfdef then
    match (headerGuardNode.children.filter isNamed)[1]? with
    | some defineNode =>
        if defineNode.type = .preprocDef then
          let ifndefText := headerGuardNode.text.takeWhile fun c => c ≠ '\n'
          let endifText := headerGuardNode.text.rtakeWhile fun c => c ≠ '\n'
          let comment :=
            match root.children[beforeBodyChildCnt + 1]? with
            | some nextSibling => if nextSibling.type = .comment then nextSibling.text else []
            | none => []
          return {
            traditionGuard := true
            guardLines := [ifndefText, defineNode.text, endifText ++ comment]
            beforeBodyChildCnt := 2 + 1
            root := headerGuardNode }
        else return { beforeBodyChildCnt := beforeBodyChildCnt, root := root }
    | none => return { beforeBodyChildCnt := beforeBodyChildCnt, root := root }
  else return { beforeBodyChildCnt := beforeBodyChildCnt, root := root }

/-- A child that is printed with the front of a file. -/
def isFrontDecl (node : TsNode) : Bool :=
  node.type.isPreproc || node.type = .usingDeclaration || node.type = .aliasDeclaration ||
    node.type = .typeDefinition || node.type = .linkageSpecification || node.isTypeDecl

/-- The text of a declaration in the front. -/
def frontDeclText (node : TsNode) : Text :=
  if node.endPoint.row - node.startPoint.row ≠ 0 then stringTrim node.text else node.text

/-- The loop over the children: the texts of the front, and how many children it takes. The first
`skipped` children are comments that have been taken. -/
def frontDeclsFrom : List TsNode → Nat → List TsNode → List Text × Nat
  | _, _, [] => ([], 0)
  | previous, skipped + 1, node :: rest =>
      let (frontDecls, cnt) := frontDeclsFrom (node :: previous) skipped rest
      (frontDecls, cnt + 1)
  | previous, 0, node :: rest =>
      if node.isFrontDecl then
        let (frontDecls, cnt) := frontDeclsFrom (node :: previous) 0 rest
        (node.frontDeclText :: frontDecls, cnt + 1)
      else if node.type = .comment then
        let (_, comment, commentCnt) :=
          getComment (previous.head?.map sibling) node.sibling (rest.map sibling)
        let (frontDecls, cnt) := frontDeclsFrom (node :: previous) (commentCnt - 1) rest
        (comment :: frontDecls, cnt + 1)
      else ([], 0)

/-- The declarations that a file begins with, and the number of children up to the first other
one. -/
def getFrontDecls (root : TsNode) (cnt : Nat) : List Text × Nat :=
  let (frontDecls, taken) :=
    frontDeclsFrom (root.children.take cnt).reverse 0 (root.children.drop cnt)
  (frontDecls, cnt + taken)

end TsNode

end MergeBot
