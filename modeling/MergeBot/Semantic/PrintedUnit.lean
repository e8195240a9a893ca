import MergeBot.Foundation.InOrder
import MergeBot.Semantic.BuiltSources
import MergeBot.Semantic.PrettyPrinter
import MergeBot.Server.Cache

/-!
# Printing files

`PrettyPrintTU` writes the front of a file, its tree and the end of its header guard. All
indentation together is spaces: without them, the text of a tree is that of the tree printed
without any indentation (`prettyPrintNode_solid`). So what a graph keeps of the texts of a source
stands in the printed file, in the order of the source (`build_prints`).
-/

namespace MergeBot

open Foundation

/-! ## Texts without spaces -/

/-- A text without its spaces. -/
def solid (text : Text) : Text := text.filter fun c => c ≠ ' '

@[simp]
theorem solid_append (first second : Text) : solid (first ++ second) = solid first ++ solid second :=
  List.filter_append first second

/-- Indentation is spaces. -/
theorem solid_indented {line indented : Text} (isIndented : Indented line indented) :
    solid indented = solid line := by
  obtain ⟨⟨count, rfl⟩, -⟩ := isIndented
  have spaces : solid (List.replicate count ' ') = [] := by
    rw [solid, List.filter_replicate]
    rfl
  rw [solid_append, spaces, List.nil_append]

theorem solid_unlines {lines indented : List Text}
    (isIndented : List.Forall₂ Indented lines indented) :
    solid (unlines '\n' indented) = solid (unlines '\n' lines) := by
  induction isIndented with
  | nil => rfl
  | @cons line first _ rest here _ inductionHypothesis =>
    rw [unlines_cons, unlines_cons, ← List.singleton_append,
      ← List.singleton_append (l := unlines _ _), solid_append, solid_append, solid_append,
      solid_append, solid_indented here, inductionHypothesis]

/-- Bringing lines to their indentation changes nothing but spaces. -/
theorem solid_indentCodeLines (str : Text) (indent collapseSpaceCnt : Nat) :
    solid (indentCodeLines str indent collapseSpaceCnt) = solid str := by
  obtain ⟨single, lastSingle⟩ := splitLines_single '\n' str
  have text := splitLines_text '\n' str
  generalize (splitLines '\n' str).1 = lines at single text
  generalize (splitLines '\n' str).2 = last at lastSingle text
  subst text
  rw [indentCodeLines_unlines indent collapseSpaceCnt lines single lastSingle, solid_append,
    solid_append, solid_indented (indented_indentLast indent collapseSpaceCnt last)]
  refine congrArg (· ++ solid last) (solid_unlines ?_)
  rw [List.forall₂_map_right_iff]
  exact List.forall₂_same.mpr fun line _ => indented_indentLine indent collapseSpaceCnt line

namespace PrettyPrinter

/-! ## Printing without indentation -/

/-- The text of a node, as `prettyPrintNode` puts it together before it is indented. -/
def printUnindented (fields : PrintedFields) (heap : Heap) : Nat → NodeRef → Option Text
  | 0, _ => none
  | fuel + 1, ref =>
      let node := heap ref
      if node.kind.isTerminal then some (printTerminalNode node (fields.displayName ref))
      else do
        let texts ← (printedEntries heap ref).mapM
          (printEntry (printUnindented fields heap fuel))
        return printOpening node ++ texts.flatten ++ printClosing node (fields.nsComment ref)

variable (fields : PrintedFields) (heap : Heap)

theorem printUnindented_terminal {ref : NodeRef} (terminal : (heap ref).kind.isTerminal = true)
    (fuel : Nat) : printUnindented fields heap (fuel + 1) ref =
      some (printTerminalNode (heap ref) (fields.displayName ref)) :=
  if_pos terminal

theorem printUnindented_composite {ref : NodeRef} {fuel : Nat} {texts : List Text}
    (composite : ¬ (heap ref).kind.isTerminal = true)
    (printed : (printedEntries heap ref).mapM (printEntry (printUnindented fields heap fuel)) =
      some texts) :
    printUnindented fields heap (fuel + 1) ref =
      some (printOpening (heap ref) ++ texts.flatten ++
        printClosing (heap ref) (fields.nsComment ref)) :=
  (if_neg composite).trans (by rw [printed]; rfl)

/-- What is made of the results, made of each. -/
theorem map_mapM {α β γ : Type} (parse : α → Option β) (make : β → γ) (items : List α) :
    (items.mapM parse).map (List.map make) = items.mapM fun item => (parse item).map make := by
  induction items with
  | nil => rfl
  | cons item rest inductionHypothesis =>
    rw [List.mapM_cons, List.mapM_cons, ← inductionHypothesis]
    cases parse item <;> cases rest.mapM parse <;> rfl

theorem solid_flatten (texts : List Text) : solid texts.flatten = (texts.map solid).flatten :=
  List.filter_flatten

/-- The indentation of a node and of all nodes below it is spaces: without spaces, a tree is
printed as if nothing was indented. -/
theorem prettyPrintNode_solid (fuel : Nat) (ref : NodeRef) :
    (prettyPrintNode fields heap fuel ref).map solid =
      (printUnindented fields heap fuel ref).map solid := by
  induction fuel generalizing ref with
  | zero => rfl
  | succ fuel inductionHypothesis =>
    rw [prettyPrintNode, printUnindented]
    dsimp only
    split
    · rw [Option.map_some, Option.map_some, solid_indentCodeLines]
    · have alike : ((printedEntries heap ref).mapM
            (printEntry (prettyPrintNode fields heap fuel))).map (List.map solid) =
          ((printedEntries heap ref).mapM
            (printEntry (printUnindented fields heap fuel))).map (List.map solid) := by
        rw [map_mapM, map_mapM]
        refine congrArg (fun print => List.mapM print _) (funext fun entry => ?_)
        cases entry with
        | heading accessSpecifier => rfl
        | item child => exact inductionHypothesis child
      -- Both texts are put together of the solid texts of the entries.
      have together := congrArg (Option.map fun texts : List Text =>
        solid (printOpening (heap ref)) ++ texts.flatten ++
          solid (printClosing (heap ref) (fields.nsComment ref))) alike
      rw [Option.map_map, Option.map_map] at together
      refine Eq.trans ?_ (together.trans ?_)
      · cases (printedEntries heap ref).mapM (printEntry (prettyPrintNode fields heap fuel)) with
        | none => rfl
        | some texts => simp [solid_indentCodeLines, solid_flatten]
      · cases (printedEntries heap ref).mapM (printEntry (printUnindented fields heap fuel)) with
        | none => rfl
        | some texts => simp [solid_flatten]

/-- What stands in the texts of the nodes stands in those of the entries in the same order: labels
are put in between. -/
theorem printEntries_inOrder {print : NodeRef → Option Text}
    {entries : List (Headings.Entry NodeRef AccessSpecifierKind)} {parts : List (List Text)}
    (printed : List.Forall₂ (fun pieces ref => ∃ text, print ref = some text ∧ InOrder pieces text)
      parts (entries.filterMap Headings.Entry.value?)) :
    ∃ texts, entries.mapM (printEntry print) = some texts ∧
      InOrder parts.flatten texts.flatten := by
  induction entries generalizing parts with
  | nil =>
    cases printed
    exact ⟨[], rfl, .nil _⟩
  | cons entry rest inductionHypothesis =>
    cases entry with
    | heading accessSpecifier =>
      obtain ⟨texts, later, inOrder⟩ := inductionHypothesis printed
      refine ⟨(accessSpecifier.enumName ++ ['\n']) :: texts, ?_, inOrder.prepend _⟩
      rw [List.mapM_cons, later]
      rfl
    | item child =>
      cases printed with
      | cons here others =>
        obtain ⟨text, isText, inText⟩ := here
        obtain ⟨texts, later, inOrder⟩ := inductionHypothesis others
        refine ⟨text :: texts, ?_, inText.append inOrder⟩
        rw [List.mapM_cons, later, printEntry, isText]
        rfl

/-! ## Files -/

/-- The first lines of a header guard. -/
def printGuard (isHeader : Bool) (unit : SemanticNode) : Option Text :=
  if isHeader then
    if unit.traditionGuard then do
      let ifndefLine ← unit.headerGuard[0]?
      let defineLine ← unit.headerGuard[1]?
      return ifndefLine.toList ++ ['\n'] ++ (defineLine.toList ++ ['\n'])
    else unit.headerGuard[0]?.map String.toList
  else some []

/-- The front of a file. -/
def printFront (isHeader : Bool) (unit : SemanticNode) : Option Text := do
  let guardLines ← printGuard isHeader unit
  return unit.comment.toList ++ ['\n'] ++ guardLines ++
    unit.frontDecls.flatMap fun frontDecl => frontDecl.toList ++ ['\n']

/-- The end of a header guard. -/
def printBack (isHeader : Bool) (unit : SemanticNode) : Option Text :=
  if isHeader && unit.traditionGuard then unit.headerGuard[2]?.map String.toList else some []

/-- The file that a translation unit is written to, and its text. -/
def PrettyPrintTU (isHeader : Bool) (destDir : Text) (fuel : Nat) (unit : NodeRef) :
    Option (Text × Text) := do
  let front ← printFront isHeader (heap unit)
  let body ← prettyPrintNode fields heap fuel unit
  let back ← printBack isHeader (heap unit)
  return (joinPath destDir (fields.displayName unit), front ++ body ++ back)

end PrettyPrinter

/-! ## What a graph keeps of the sources -/

namespace TsNode

theorem length_nodes_pos (node : TsNode) : 0 < node.nodes.length :=
  List.length_pos_of_mem node.self_mem_nodes

theorem length_nodes (node : TsNode) :
    node.nodes.length = (nodes.nodesOf node.children).length + 1 := by
  cases node
  rw [nodes, List.length_cons, children]

theorem length_nodes_le {node child : TsNode} (isChild : child ∈ node.children) :
    child.nodes.length < node.nodes.length := by
  rw [length_nodes node]
  refine Nat.lt_succ_of_le ?_
  generalize node.children = children at isChild
  induction children with
  | nil => exact absurd isChild List.not_mem_nil
  | cons first rest inductionHypothesis =>
    rw [nodes.nodesOf, List.length_append]
    rcases List.mem_cons.mp isChild with rfl | later
    · exact Nat.le_add_right _ _
    · exact (inductionHypothesis later).trans (Nat.le_add_left _ _)

end TsNode

namespace GraphBuilder

open PrettyPrinter

theorem length_composedOf (kind : NodeKind) (child : TsNode) :
    (TsNode.nodes.nodesOf (composedOf kind child)).length < child.nodes.length := by
  unfold composedOf
  split
  · cases found : bodyOf child with
    | none => exact child.length_nodes_pos
    | some body =>
      have below := TsNode.length_nodes_le (TsNode.mem_of_getChildByFieldName found)
      have inner : (realNode child).nodes.length ≤ child.nodes.length := by
        unfold realNode
        split
        · cases kind : templateKind child with
          | none => exact Nat.le_refl _
          | some chosen =>
            obtain ⟨childChild, inside, isChosen⟩ := List.exists_of_findSome?_eq_some kind
            have real : chosen.1 = childChild := by grind
            rw [← real] at inside
            exact (TsNode.length_nodes_le inside).le
        · exact Nat.le_refl _
      have body_length := body.length_nodes
      simp only [Option.elim_some]
      omega
  · exact child.length_nodes_pos

/-- The texts that the graph keeps of syntax nodes, in their order: those of the nodes that become
terminal ones. -/
def sourceTexts (inType : Bool) : List TsNode → List Text
  | [] => []
  | child :: rest =>
      if child.type = .comment then sourceTexts inType rest
      else
        match kindOf inType child with
        | none => sourceTexts inType rest
        | some kind =>
            if kind.isTerminal then heldText kind child :: sourceTexts inType rest
            else sourceTexts (kind = .type) (composedOf kind child) ++ sourceTexts inType rest
termination_by nodes => (TsNode.nodes.nodesOf nodes).length
decreasing_by
  all_goals
    rw [TsNode.nodes.nodesOf, List.length_append]
    first
    | exact Nat.lt_add_of_pos_left child.length_nodes_pos
    | exact (length_composedOf kind child).trans_le (Nat.le_add_right _ _)

section Prints

variable {specifierText : NodeRef → Text} {heap : Heap} {inType : Bool} {low high : NodeRef}
  {refs : List NodeRef} {nodes : List TsNode}

theorem sourceTexts_comment {child : TsNode} (isComment : child.type = .comment)
    (rest : List TsNode) : sourceTexts inType (child :: rest) = sourceTexts inType rest := by
  rw [sourceTexts, if_pos isComment]

theorem sourceTexts_lost {child : TsNode} (isNode : child.type ≠ .comment)
    (noKind : kindOf inType child = none) (rest : List TsNode) :
    sourceTexts inType (child :: rest) = sourceTexts inType rest := by
  rw [sourceTexts, if_neg isNode, noKind]

theorem sourceTexts_node {child : TsNode} {kind : NodeKind} (isNode : child.type ≠ .comment)
    (isKind : kindOf inType child = some kind) (rest : List TsNode) :
    sourceTexts inType (child :: rest) =
      (if kind.isTerminal then [heldText kind child]
        else sourceTexts (kind = .type) (composedOf kind child)) ++ sourceTexts inType rest := by
  rw [sourceTexts, if_neg isNode, isKind]
  dsimp only
  split <;> rfl

/-- The body of a terminal node is printed. -/
theorem body_infix_printTerminalNode (node : SemanticNode) (displayName : Text) :
    node.body.toList <:+: printTerminalNode node displayName :=
  ⟨node.comment.toList ++ printSignature node displayName, printEOLs node.followingEOL, rfl⟩

/-- Nodes that represent syntax nodes are printed with the texts of these, in their order. -/
theorem Represents.prints (fields : PrintedFields)
    (represents : Represents specifierText heap inType low refs nodes high) {fuel : Nat}
    (enough : high ≤ low + fuel) :
    ∃ parts : List (List Text), parts.flatten = sourceTexts inType nodes ∧
      List.Forall₂ (fun pieces ref => ∃ text,
        printUnindented fields heap fuel ref = some text ∧ InOrder pieces text) parts refs := by
  induction represents generalizing fuel with
  | done => exact ⟨[], by rw [sourceTexts, List.flatten_nil], .nil⟩
  | comment isComment _ inductionHypothesis =>
    obtain ⟨parts, texts, printed⟩ := inductionHypothesis enough
    exact ⟨parts, texts.trans (sourceTexts_comment isComment _).symm, printed⟩
  | @orphan inType low high refs child nodes isComment isOrphan childless rest
      inductionHypothesis =>
    have deep : high ≤ low + 1 + fuel :=
      enough.trans (Nat.add_le_add_right (Nat.le_succ low) fuel)
    obtain ⟨parts, texts, printed⟩ := inductionHypothesis deep
    refine ⟨[] :: parts, texts.trans (sourceTexts_comment isComment _).symm, .cons ?_ printed⟩
    have room : low < low + fuel := Nat.lt_of_succ_le (rest.le.trans enough)
    obtain ⟨fuel, rfl⟩ := Nat.exists_eq_add_one.mpr (Nat.lt_add_right_iff_pos.mp room)
    exact ⟨_, printUnindented_terminal fields heap (by rw [isOrphan]; rfl) fuel, .nil _⟩
  | lost isNode noKind _ inductionHypothesis =>
    obtain ⟨parts, texts, printed⟩ := inductionHypothesis enough
    exact ⟨parts, texts.trans (sourceTexts_lost isNode noKind _).symm, printed⟩
  | @node inType low middle high refs child nodes kind isNode isKind describes label access below
      rest belowHypothesis restHypothesis =>
    have up : low + 1 ≤ middle := below.le
    have down : middle ≤ high := rest.le
    have ahead : high ≤ middle + fuel :=
      enough.trans (Nat.add_le_add_right ((Nat.le_succ low).trans up) fuel)
    obtain ⟨parts, texts, printed⟩ := restHypothesis ahead
    have room : low < low + fuel := Nat.lt_of_succ_le ((up.trans down).trans enough)
    obtain ⟨fuel, rfl⟩ := Nat.exists_eq_add_one.mpr (Nat.lt_add_right_iff_pos.mp room)
    rw [sourceTexts_node isNode isKind, ← texts]
    by_cases terminal : kind.isTerminal = true
    · refine ⟨[heldText kind child] :: parts, ?_, .cons ?_ printed⟩
      · rw [if_pos terminal, List.flatten_cons]
      · exact ⟨_, printUnindented_terminal fields heap (by rwa [describes.isKind]) fuel,
          .single (describes.text.isInfix.trans (body_infix_printTerminalNode _ _))⟩
    · have deep : middle ≤ low + 1 + fuel := by
        rw [Nat.add_assoc, Nat.add_comm 1 fuel]
        exact down.trans enough
      obtain ⟨inner, innerTexts, innerPrinted⟩ := belowHypothesis deep
      refine ⟨inner.flatten :: parts, ?_, .cons ?_ printed⟩
      · rw [if_neg terminal, List.flatten_cons, innerTexts]
      · rw [← values_printedEntries low] at innerPrinted
        obtain ⟨entryTexts, entries, inOrder⟩ := printEntries_inOrder innerPrinted
        exact ⟨_, printUnindented_composite fields heap (by rwa [describes.isKind]) entries,
          (inOrder.prepend _).extend _⟩

/-- A file with nodes that represent syntax nodes is printed with the texts of these; spaces do not
count. -/
theorem Represents.printsUnit (fields : PrintedFields) {unit : NodeRef}
    (isUnit : (heap unit).kind = .translationUnit)
    (represents : Represents specifierText heap inType low (heap unit).children nodes high)
    {fuel : Nat} (enough : high ≤ low + fuel) :
    ∃ text, prettyPrintNode fields heap (fuel + 1) unit = some text ∧
      InOrder ((sourceTexts inType nodes).map solid) (solid text) := by
  obtain ⟨parts, texts, printed⟩ := represents.prints fields enough
  rw [← values_printedEntries unit] at printed
  obtain ⟨entryTexts, entries, inOrder⟩ := printEntries_inOrder printed
  have plain := printUnindented_composite fields heap (by rw [isUnit]; nofun) entries
  have same := prettyPrintNode_solid fields heap (fuel + 1) unit
  rw [plain, Option.map_some] at same
  obtain ⟨text, isText, solidText⟩ := Option.map_eq_some_iff.mp same
  refine ⟨text, isText, ?_⟩
  rw [solidText, ← texts]
  exact ((inOrder.prepend _).extend _).filter _

end Prints

/-! ## The names of files -/

/-- The names of the objects that are there stay. -/
theorem act_displayName {builder built : GraphBuilder} {action : Action}
    (moved : builder.act action = some built) :
    builder.nextRef ≤ built.nextRef ∧ ∀ ref < builder.nextRef,
      built.fields.displayName ref = builder.fields.displayName ref := by
  refine ⟨act_nextRef moved, fun ref old => ?_⟩
  cases action with
  | root node =>
    obtain rfl := Option.some.inj moved
    exact Function.update_of_ne old.ne _ _
  | child parent parentDesc node =>
    obtain ⟨-, rfl⟩ := of_guarded moved
    exact Function.update_of_ne old.ne _ _
  | label type text =>
    obtain ⟨-, rfl⟩ := of_guarded moved
    rfl
  | access type =>
    obtain ⟨-, rfl⟩ := of_guarded moved
    rfl

theorem Reaches.displayName {builder built : GraphBuilder} (reaches : Reaches builder built) :
    ∀ ref < builder.nextRef, built.fields.displayName ref = builder.fields.displayName ref := by
  obtain ⟨actions, run⟩ := reaches
  refine (run.relation (fun first second => first.nextRef ≤ second.nextRef ∧
    ∀ ref < first.nextRef, second.fields.displayName ref = first.fields.displayName ref)
    (fun _ => ⟨Nat.le_refl _, fun _ _ => rfl⟩) ?_ act_displayName).2
  rintro first second third ⟨up, same⟩ ⟨further, later⟩
  exact ⟨up.trans further, fun ref old =>
    (later ref (old.trans_le up)).trans (same ref old)⟩

namespace BuildTask

variable {task : BuildTask} {std : StdHash} {extraction : Extraction}
  {builder built : GraphBuilder}

/-- The file of a translation unit is named by the path of the source. -/
theorem processCppTranslationUnit_displayName {path : Text} {root : TsNode}
    (processed : task.processCppTranslationUnit std extraction builder path root = some built) :
    built.fields.displayName builder.nextRef = path := by
  obtain ⟨⟨node, turoot, frontDeclCnt⟩, isUnit, parsed⟩ := Option.bind_eq_some_iff.mp processed
  have isVertex : ((builder.make node).addVertex builder.nextRef).HasVertex
      builder.vertices.length builder.nextRef :=
    ⟨by simp [addVertex, make], Nat.lt_succ_self _⟩
  have kept := (parseCompositeNode_grows isVertex parsed).reaches.displayName builder.nextRef
    (Nat.lt_succ_self _)
  have new : ((builder.make node).addVertex builder.nextRef).fields.displayName builder.nextRef =
      node.displayName := Function.update_self ..
  rw [kept, new]
  unfold parseTranslationUnit at isUnit
  dsimp only at isUnit
  obtain ⟨guarded, -, ended⟩ := Option.bind_eq_some_iff.mp isUnit
  obtain ⟨rfl, -⟩ := Prod.mk.inj (Option.some.inj ended)
  rfl

/-- Every source is processed at some time, and what is made later leaves what was made. -/
theorem build_at {path : Text} (listed : path ∈ task.sourceList)
    (finished : task.build std extraction builder = some built) :
    ∃ first middle, task.processTranslationUnit std extraction first path = some middle ∧
      Reaches middle built ∧ (∀ ref < middle.nextRef, built.heap ref = middle.heap ref) ∧
      ∀ ref < middle.nextRef, built.specifierText ref = middle.specifierText ref := by
  obtain ⟨before, after, sources⟩ := List.append_of_mem listed
  rw [build, sources, List.foldlM_append] at finished
  obtain ⟨first, -, finished⟩ := Option.bind_eq_some_iff.mp finished
  rw [List.foldlM_cons] at finished
  obtain ⟨middle, processed, finished⟩ := Option.bind_eq_some_iff.mp finished
  have later : BuildTask.build { task with sourceList := after } std extraction middle =
      some built := finished
  obtain ⟨reaches, old, texts, -⟩ := build_grows later
  exact ⟨first, middle, processed, reaches, old, texts⟩

end BuildTask

/-! ## Printed sources -/

namespace BuildTask

variable {task : BuildTask} {std : StdHash} {extraction : Extraction} {builder built : GraphBuilder}

/-- The texts of a source, in their order: the comments that it begins with, the lines of its guard
up to the definition, the declarations of its front, what the graph keeps of the rest, and the end
of the guard. -/
def fileTexts (task : BuildTask) (path : Text) (root : TsNode) : Option (List Text) := do
  let (commentCnt, comment) := root.getTranslationUnitComment
  let guarded ← task.guarded path root commentCnt
  let (frontDecls, frontDeclCnt) := guarded.root.getFrontDecls guarded.beforeBodyChildCnt
  return comment :: guarded.guardLines.take 2 ++ frontDecls ++
    sourceTexts false (guarded.root.children.drop frontDeclCnt) ++ guarded.guardLines.drop 2

/-- A traditional guard has three lines; another one has a line, or there is none. Files that are
no headers have none. -/
theorem guarded_lines {path : Text} {root : TsNode} {commentCnt : Nat}
    {guard : TsNode.HeaderGuard} (isGuard : task.guarded path root commentCnt = some guard) :
    (guard.traditionGuard = true ∧ IsCppHeader (task.filePath path) = true ∧
        ∃ ifndefLine defineLine endifLine,
          guard.guardLines = [ifndefLine, defineLine, endifLine]) ∨
      (guard.traditionGuard = false ∧ IsCppHeader (task.filePath path) = true ∧
        ∃ pragmaLine, guard.guardLines = [pragmaLine]) ∨
      guard.traditionGuard = false ∧ guard.guardLines = [] := by
  unfold guarded at isGuard
  split at isGuard
  · rename_i isHeader
    unfold TsNode.getHeaderGuard at isGuard
    obtain ⟨node, -, isGuard⟩ := Option.bind_eq_some_iff.mp isGuard
    split at isGuard
    · obtain rfl := Option.some.inj isGuard
      exact .inr (.inl ⟨rfl, isHeader, _, rfl⟩)
    · split at isGuard
      · split at isGuard
        · split at isGuard
          · obtain rfl := Option.some.inj isGuard
            exact .inl ⟨rfl, isHeader, _, _, _, rfl⟩
          · obtain rfl := Option.some.inj isGuard
            exact .inr (.inr ⟨rfl, rfl⟩)
        · obtain rfl := Option.some.inj isGuard
          exact .inr (.inr ⟨rfl, rfl⟩)
      · obtain rfl := Option.some.inj isGuard
        exact .inr (.inr ⟨rfl, rfl⟩)
  · obtain rfl := Option.some.inj isGuard
    exact .inr (.inr ⟨rfl, rfl⟩)

/-- Texts that are ended by something stand in their order. -/
theorem inOrder_ended (texts : List Text) (ending : Text) :
    InOrder texts (texts.flatMap fun text => text ++ ending) := by
  induction texts with
  | nil => exact .nil _
  | cons text rest inductionHypothesis =>
    rw [List.flatMap_cons]
    exact ((InOrder.self text).extend ending).append inductionHypothesis

/-- What the node of a file keeps of its front. -/
theorem parseTranslationUnit_record {path : Text} {root turoot : TsNode} {node : NewNode}
    {frontDeclCnt : Nat}
    (isUnit : task.parseTranslationUnit path root = some (node, turoot, frontDeclCnt)) :
    ∃ guard, task.guarded path root root.getTranslationUnitComment.1 = some guard ∧
      turoot = guard.root ∧
      frontDeclCnt = (guard.root.getFrontDecls guard.beforeBodyChildCnt).2 ∧
      node.record.comment = String.ofList root.getTranslationUnitComment.2 ∧
      node.record.traditionGuard = guard.traditionGuard ∧
      node.record.headerGuard =
        (if guard.guardLines = [] then [[], [], []] else guard.guardLines).map String.ofList ∧
      node.record.frontDecls =
        (guard.root.getFrontDecls guard.beforeBodyChildCnt).1.map String.ofList := by
  unfold parseTranslationUnit at isUnit
  dsimp only at isUnit
  obtain ⟨guard, isGuard, ended⟩ := Option.bind_eq_some_iff.mp isUnit
  obtain ⟨rfl, same⟩ := Prod.mk.inj (Option.some.inj ended)
  obtain ⟨rfl, rfl⟩ := Prod.mk.inj same
  exact ⟨guard, isGuard, rfl, rfl, rfl, rfl, rfl, rfl⟩

/-- The front of a file and the end of its guard are printed with their texts. -/
theorem parseTranslationUnit_prints {path : Text} {root turoot : TsNode} {node : NewNode}
    {frontDeclCnt : Nat}
    (isUnit : task.parseTranslationUnit path root = some (node, turoot, frontDeclCnt)) :
    ∃ front back : List Text,
      task.fileTexts path root = some
        (front ++ sourceTexts false (turoot.children.drop frontDeclCnt) ++ back) ∧
      (∃ text, printFront (IsCppHeader (task.filePath path)) node.record = some text ∧
        InOrder front text) ∧
      ∃ text, printBack (IsCppHeader (task.filePath path)) node.record = some text ∧
        InOrder back text := by
  obtain ⟨guard, isGuard, rfl, rfl, isComment, isTradition, headerGuard, isFront⟩ :=
    parseTranslationUnit_record isUnit
  have texts : task.fileTexts path root = some
      (root.getTranslationUnitComment.2 :: guard.guardLines.take 2 ++
        (guard.root.getFrontDecls guard.beforeBodyChildCnt).1 ++
        sourceTexts false (guard.root.children.drop
          (guard.root.getFrontDecls guard.beforeBodyChildCnt).2) ++ guard.guardLines.drop 2) := by
    unfold fileTexts
    dsimp only
    rw [isGuard]
    rfl
  refine ⟨_, _, texts, ?_⟩
  generalize node.record = unit at isComment isTradition headerGuard isFront ⊢
  have declarations := inOrder_ended (guard.root.getFrontDecls guard.beforeBodyChildCnt).1 ['\n']
  have comment : InOrder [root.getTranslationUnitComment.2]
      (root.getTranslationUnitComment.2 ++ ['\n']) := (InOrder.self _).extend _
  rcases guarded_lines isGuard with ⟨tradition, isHeader, ifndefLine, defineLine, endifLine, lines⟩ |
    ⟨tradition, isHeader, pragmaLine, lines⟩ | ⟨tradition, lines⟩
  · have guardLines : InOrder [ifndefLine, defineLine]
        (ifndefLine ++ ['\n'] ++ (defineLine ++ ['\n'])) :=
      ((InOrder.self _).extend _).append ((InOrder.self _).extend _)
    rw [lines]
    refine ⟨⟨_, ?_, (comment.append guardLines).append declarations⟩, endifLine, ?_, .self _⟩
    · simp [printFront, printGuard, isHeader, isComment, isTradition, headerGuard, isFront,
        tradition, lines, List.flatMap_map]
    · simp [printBack, isHeader, isTradition, headerGuard, tradition, lines]
  · rw [lines]
    refine ⟨⟨_, ?_, (comment.append (.self pragmaLine)).append declarations⟩, [], ?_, .nil _⟩
    · simp [printFront, printGuard, isHeader, isComment, isTradition, headerGuard, isFront,
        tradition, lines, List.flatMap_map]
    · simp [printBack, isTradition, tradition]
  · rw [lines]
    refine ⟨⟨_, ?_, (comment.append (.nil [])).append declarations⟩, [], ?_, .nil _⟩
    · cases isHeader : IsCppHeader (task.filePath path) <;>
        simp [printFront, printGuard, isComment, isTradition, headerGuard, isFront, tradition,
          lines, List.flatMap_map]
    · simp [printBack, isTradition, tradition]

/-- Every source of the graph that was built is printed to the file of its name, with the texts
that it is made of in their order; spaces do not count. -/
theorem build_prints (readable : task.Readable) (builder : GraphBuilder) :
    ∃ built, task.build std extraction builder = some built ∧
      ∀ path ∈ task.sourceList, (IsCppSource path || IsCSource path) = true →
        ∀ root ∈ task.parse (task.filePath path), ∃ texts unit,
          task.fileTexts path root = some texts ∧ unit ∈ built.vertices ∧
          ∀ destDir fuel, built.nextRef ≤ fuel → ∃ text,
            PrettyPrintTU built.fields built.heap (IsCppHeader (task.filePath path)) destDir fuel
              unit = some (joinPath destDir path, text) ∧
            InOrder (texts.map solid) (solid text) := by
  obtain ⟨built, finished⟩ : ∃ built, task.build std extraction builder = some built :=
    Option.isSome_iff_exists.mp (build_isSome readable builder)
  refine ⟨built, finished, fun path listed isSource root parsed => ?_⟩
  obtain ⟨first, middle, processed, reaches, old, texts⟩ := build_at listed finished
  obtain ⟨-, -, -, sources⟩ := processTranslationUnit_grows processed
  have sources := sources.congr old texts fun ref member => reaches.vertices.subset member
  have named : middle.fields.displayName first.nextRef = path := by
    have isParsed : task.parse (task.filePath path) = some root := parsed
    rw [processTranslationUnit, isParsed] at processed
    dsimp only at processed
    rw [if_pos isSource] at processed
    exact processCppTranslationUnit_displayName processed
  cases sources with
  | passed isOther _ =>
    rcases isOther with missing | isOther
    · exact absurd (missing.symm.trans parsed) nofun
    · exact absurd isSource (by rw [isOther]; nofun)
  | @unit _ high _ _ _ _ _ _ _ parsed' _ isUnit _ isVertex isRecord represents later =>
    obtain rfl := Option.some.inj (parsed'.symm.trans parsed)
    obtain ⟨front, back, isTexts, ⟨frontText, isFront, inFront⟩, backText, isBack, inBack⟩ :=
      parseTranslationUnit_prints isUnit
    refine ⟨_, _, isTexts, isVertex, fun destDir fuel enough => ?_⟩
    have made : first.nextRef < middle.nextRef :=
      Nat.lt_of_succ_le (represents.le.trans later.le)
    have inside : middle.nextRef ≤ built.nextRef := reaches.nextRef
    obtain ⟨id, record⟩ := isRecord
    have room : first.nextRef < fuel := (made.trans_le inside).trans_le enough
    obtain ⟨fuel, rfl⟩ := Nat.exists_eq_add_one.mpr (Nat.zero_lt_of_lt room)
    have isKind : (built.heap first.nextRef).kind = .translationUnit := by
      rw [record]
      exact parseTranslationUnit_kind isUnit
    have deep : high ≤ first.nextRef + 1 + fuel := by
      refine (later.le.trans (inside.trans enough)).trans ?_
      rw [Nat.add_assoc, Nat.add_comm 1 fuel]
      exact Nat.le_add_left _ _
    obtain ⟨bodyText, isBody, inBody⟩ := represents.printsUnit built.fields isKind deep
    have unitFront : printFront (IsCppHeader (task.filePath path)) (built.heap first.nextRef) =
        some frontText := by
      rw [record]
      exact isFront
    have unitBack : printBack (IsCppHeader (task.filePath path)) (built.heap first.nextRef) =
        some backText := by
      rw [record]
      exact isBack
    have kept := (reaches.displayName first.nextRef made).trans named
    refine ⟨frontText ++ bodyText ++ backText, ?_, ?_⟩
    · rw [PrettyPrintTU, unitFront, isBody, unitBack, kept]
      rfl
    · rw [solid_append, solid_append, List.map_append, List.map_append]
      exact ((inFront.filter _).append inBody).append (inBack.filter _)

/-- The file of a class in a namespace has the text of the member. -/
example :
    ∃ built, buttonTask.build .polynomial noExtraction emptyBuilder = some built ∧
      ∀ path ∈ buttonTask.sourceList, (IsCppSource path || IsCSource path) = true →
        ∀ root ∈ buttonTask.parse (buttonTask.filePath path), ∃ texts unit,
          buttonTask.fileTexts path root = some texts ∧ unit ∈ built.vertices ∧
          ∀ destDir fuel, built.nextRef ≤ fuel → ∃ text,
            PrettyPrintTU built.fields built.heap (IsCppHeader (buttonTask.filePath path)) destDir
              fuel unit = some (joinPath destDir path, text) ∧
            InOrder (texts.map solid) (solid text) :=
  build_prints buttonTask_readable emptyBuilder

end BuildTask

end GraphBuilder

end MergeBot
