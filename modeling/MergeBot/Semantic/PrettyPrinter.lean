import MergeBot.Foundation.Headings
import MergeBot.Model.SemanticNode
import MergeBot.Semantic.Indentation

/-!
# Printing semantic nodes

`prettyPrintNode` prints a node and all below it. A terminal node is its comment, signature
and body; a composite node puts its children between its signature and a closing brace, with
an access label in front of each child whose access is not that of the label printed last.
`printedEntries_type`: the labels are the headings of the children.

The recursion follows the tree in the heap and is bounded by fuel; `prettyPrintNode_returns`:
the height of the tree is enough.
-/

namespace MergeBot

open Foundation

/-- What only printing reads of a node, and no merge writes. -/
structure PrintedFields where
  displayName : NodeRef → Text
  nsComment : NodeRef → Text
  /-- The column of the start point, or zero without one. -/
  startColumn : NodeRef → Nat

namespace AccessSpecifierKind

/-- The name of an enumerator; those without a text of their own have the default one. -/
def enumName : AccessSpecifierKind → Text
  | none => "None".toList
  | default_ => "Default".toList
  | public_ => "public:".toList
  | protected_ => "protected:".toList
  | private_ => "private:".toList

/-- The label of a section; the one before all labels has none. -/
def label : AccessSpecifierKind → Option AccessSpecifierKind
  | none | default_ => .none
  | kind => some kind

end AccessSpecifierKind

namespace PrettyPrinter

/-! ## Signatures -/

def printTemplateParameterList (templateParameterList : Text) : Text :=
  if 10 ≤ templateParameterList.length then templateParameterList ++ ['\n']
  else if templateParameterList ≠ [] then templateParameterList ++ [' ']
  else []

/-- The items with a comma and a space in between. -/
def joinList (items : List String) : Text :=
  ", ".toList.intercalate (items.map String.toList)

/-- A signature up to the parameters. -/
def printParameters (node : SemanticNode) (displayName : Text) : Text :=
  printTemplateParameterList node.templateParameterList.toList ++ node.attrs.toList ++
    node.beforeFuncName.toList ++ displayName ++
    ['('] ++ joinList node.parameterList ++ [')']

def printFuncDefNodeSignature (func : SemanticNode) (displayName : Text) : Text :=
  printParameters func displayName ++ func.afterParameterList.toList

def printFuncOperatorCastSignature (func : SemanticNode) (displayName : Text) : Text :=
  printParameters func displayName ++ func.afterParameterList.toList

def printFuncSpecialMemberSignature (func : SemanticNode) (displayName : Text) : Text :=
  printParameters func displayName ++
    (if func.initList ≠ [] then ": ".toList ++ joinList func.initList ++ [' '] else []) ++
    match func.defType with
    | .plain => []
    | .defaulted => " = default;".toList
    | .deleted => " = delete;".toList

/-- The signature of a function; other terminal nodes print none. -/
def printSignature (node : SemanticNode) (displayName : Text) : Text :=
  if node.kind.isFunction then
    if node.sigUnchanged then node.originalSignature.toList
    else
      match node.kind with
      | .funcDef => printFuncDefNodeSignature node displayName
      | .funcOperatorCast => printFuncOperatorCastSignature node displayName
      | _ => printFuncSpecialMemberSignature node displayName
  else []

/-! ## Nodes -/

def printEOLs (count : Int) : Text :=
  List.replicate count.toNat '\n'

def printTerminalNode (node : SemanticNode) (displayName : Text) : Text :=
  node.comment.toList ++ printSignature node displayName ++ node.body.toList ++
    printEOLs node.followingEOL

/-- A composite node up to its children. -/
def printOpening (node : SemanticNode) : Text :=
  if node.kind = .translationUnit then printEOLs node.beforeFirstChildEOL
  else node.comment.toList ++ node.originalSignature.toList ++ ['{'] ++
    printEOLs node.beforeFirstChildEOL

/-- A composite node from its children on. -/
def printClosing (node : SemanticNode) (nsComment : Text) : Text :=
  if node.kind = .translationUnit then []
  else
    ['}'] ++
      (match node.kind with
        | .namespace_ => [' '] ++ nsComment
        | .type | .enum => [';']
        | _ => []) ++
      printEOLs node.followingEOL ++ ['\n', '\n']

/-- The children of a composite node and the access labels in front of them. -/
def writeChildren (heap : Heap) :
    AccessSpecifierKind → List NodeRef → List (Headings.Entry NodeRef AccessSpecifierKind)
  | _, [] => []
  | prevAccessSpecifier, child :: rest =>
      let accessSpecifier := (heap child).accessSpecifier
      if accessSpecifier ≠ prevAccessSpecifier ∧ accessSpecifier ≠ .none ∧
          accessSpecifier ≠ .default_ then
        .heading accessSpecifier :: .item child :: writeChildren heap accessSpecifier rest
      else .item child :: writeChildren heap prevAccessSpecifier rest

/-- What is printed between the opening and the closing of a composite node, in order. -/
def printedEntries (heap : Heap) (ref : NodeRef) :
    List (Headings.Entry NodeRef AccessSpecifierKind) :=
  if (heap ref).kind = .translationUnit then (heap ref).children.map .item
  else writeChildren heap .none (heap ref).children

def printEntry (printChild : NodeRef → Option Text) :
    Headings.Entry NodeRef AccessSpecifierKind → Option Text
  | .heading accessSpecifier => some (accessSpecifier.enumName ++ ['\n'])
  | .item child => printChild child

/-- The text of a node; `none` means that the fuel ran out. -/
def prettyPrintNode (fields : PrintedFields) (heap : Heap) : Nat → NodeRef → Option Text
  | 0, _ => none
  | fuel + 1, ref =>
      let node := heap ref
      let indent := fields.startColumn ref
      if node.kind.isTerminal then
        let nodeStr := printTerminalNode node (fields.displayName ref)
        let collapseSpaceCnt :=
          if nodeStr ≠ [] ∧ nodeStr.getLast? ≠ some '\n' then nodeStr.length else 0
        some (indentCodeLines nodeStr indent collapseSpaceCnt)
      else do
        let texts ← (printedEntries heap ref).mapM
          (printEntry (prettyPrintNode fields heap fuel))
        let nodeStr := printOpening node ++ texts.flatten ++
          printClosing node (fields.nsComment ref)
        return indentCodeLines nodeStr indent 0

/-! ## What is printed -/

variable {heap : Heap}

/-- The labels are the headings of the children. -/
theorem writeChildren_eq (prevAccessSpecifier : AccessSpecifierKind) (children : List NodeRef) :
    writeChildren heap prevAccessSpecifier children =
      Headings.write (fun child => (heap child).accessSpecifier.label)
        prevAccessSpecifier.label children := by
  induction children generalizing prevAccessSpecifier with
  | nil => rfl
  | cons child rest ih =>
      simp only [writeChildren, Headings.write, ih]
      cases (heap child).accessSpecifier <;> cases prevAccessSpecifier <;> rfl

theorem printedEntries_type {ref : NodeRef} (type : (heap ref).kind = .type) :
    printedEntries heap ref =
      Headings.write (fun child => (heap child).accessSpecifier.label) none
        (heap ref).children := by
  rw [printedEntries, if_neg (by rw [type]; decide), writeChildren_eq]
  rfl

/-- Every child is printed once, in order. -/
theorem values_printedEntries (ref : NodeRef) :
    (printedEntries heap ref).filterMap Headings.Entry.value? = (heap ref).children := by
  unfold printedEntries
  split
  · rw [List.filterMap_map]
    exact List.filterMap_some
  · rw [writeChildren_eq, Headings.values_write]

/-- With fuel for the height of the tree a node is printed. -/
theorem prettyPrintNode_returns (fields : PrintedFields) {rank : NodeRef → Nat}
    (down : ∀ ref, ∀ child ∈ (heap ref).children, rank child < rank ref) {fuel : Nat}
    {ref : NodeRef} (enough : rank ref < fuel) :
    ∃ text, prettyPrintNode fields heap fuel ref = some text := by
  induction fuel generalizing ref with
  | zero => exact absurd enough (Nat.not_lt_zero _)
  | succ fuel ih =>
      rw [prettyPrintNode]
      split
      · exact ⟨_, rfl⟩
      · have entries : ∀ written : List (Headings.Entry NodeRef AccessSpecifierKind),
            (∀ child, .item child ∈ written → rank child < fuel) →
              ∃ texts, written.mapM (printEntry (prettyPrintNode fields heap fuel)) =
                some texts := by
          intro written low
          induction written with
          | nil => exact ⟨[], rfl⟩
          | cons entry rest rest_ih =>
              obtain ⟨texts, rest_texts⟩ := rest_ih fun child inside =>
                low child (List.mem_cons_of_mem entry inside)
              obtain ⟨text, entry_text⟩ :
                  ∃ text, printEntry (prettyPrintNode fields heap fuel) entry = some text := by
                cases entry with
                | heading accessSpecifier => exact ⟨_, rfl⟩
                | item child => exact ih (low child List.mem_cons_self)
              exact ⟨text :: texts, by simp [List.mapM_cons, entry_text, rest_texts]⟩
        have low : ∀ child, .item child ∈ printedEntries heap ref → rank child < fuel := by
          intro child inside
          have member : child ∈ (heap ref).children := by
            rw [← values_printedEntries]
            exact List.mem_filterMap.mpr ⟨_, inside, rfl⟩
          exact Nat.lt_of_lt_of_le (down ref child member) (Nat.le_of_lt_succ enough)
        obtain ⟨texts, printed⟩ := entries (printedEntries heap ref) low
        simp only [printed]
        exact ⟨_, rfl⟩

end PrettyPrinter

end MergeBot
