import MergeBot.Semantic.Representation

/-!
# Graphs of readable sources

A graph is built of every list of sources whose trees are `Readable`: what the builder takes out of
an optional is there. The graph is a forest (`build_forest`), its objects are the trees of the
sources (`build_represents`), and the members of its types have the access of the label in front
of them (`build_access`).
-/

namespace MergeBot

open Foundation

namespace TsNode

/-- The fields that the builder needs of a node are there. -/
def parsable (node : TsNode) : Bool :=
  match node.type with
  | .namespaceDefinition | .linkageSpecification => (node.getChildByFieldName .body).isSome
  | .functionDefinition =>
      match node.getChildByFieldName .type with
      | some type =>
          if type.text = "namespace".toList then (node.getChildByFieldName .body).isSome
          else (node.getChildByFieldName .declarator).isSome
      | none => true
  | .templateDeclaration =>
      (GraphBuilder.templateKind node).all fun (inner, isClass) =>
        isClass || (inner.getChildByFieldName .body).isNone ||
          (inner.getChildByFieldName .declarator).isSome
  | _ => true

/-- All nodes of the tree can be parsed. -/
def Readable (node : TsNode) : Prop :=
  ∀ inner ∈ node.nodes, inner.parsable = true

instance (node : TsNode) : Decidable node.Readable :=
  inferInstanceAs (Decidable (∀ inner ∈ node.nodes, inner.parsable = true))

theorem Readable.child {node child : TsNode} (readable : node.Readable)
    (isChild : child ∈ node.children) : child.Readable :=
  fun inner member => readable inner (nodes_subset isChild member)

theorem beforeFirstChildEOLs_isSome {node : TsNode}
    (body : (node.getChildByFieldName .body).isSome) : node.beforeFirstChildEOLs.isSome := by
  obtain ⟨inner, found⟩ := Option.isSome_iff_exists.mp body
  rw [beforeFirstChildEOLs, found]
  rfl

end TsNode

namespace GraphBuilder

/-! ## The builder returns -/

section Returns

variable {extraction : Extraction} {parseBody : ParseBody} {builder : GraphBuilder}
  {sRoot : NodeRef} {sRootDesc : Nat}

/-- The bodies of a node, and of a node in it, can be handled. -/
def Handles (parseBody : ParseBody) (child : TsNode) : Prop :=
  ∀ {inner body : TsNode}, inner = child ∨ inner ∈ child.children →
    inner.getChildByFieldName .body = some body →
      ∀ builder cur curDesc, (parseBody builder cur curDesc body).isSome

theorem insertComposite_isSome {child inner : TsNode} (handles : Handles parseBody child)
    (place : inner = child ∨ inner ∈ child.children)
    (body : (inner.getChildByFieldName .body).isSome) (node : NewNode) :
    (insertComposite parseBody sRoot sRootDesc builder node inner).isSome := by
  obtain ⟨inside, found⟩ := Option.isSome_iff_exists.mp body
  rw [insertComposite, found]
  exact handles place found _ _ _

theorem insertType_isSome {child inner : TsNode} (handles : Handles parseBody child)
    (place : inner = child ∨ inner ∈ child.children)
    (body : (inner.getChildByFieldName .body).isSome) (node : NewNode) :
    (insertType parseBody sRoot sRootDesc builder node inner).isSome := by
  obtain ⟨built, inserted⟩ := Option.isSome_iff_exists.mp
    (@insertComposite_isSome _ builder sRoot sRootDesc _ _ handles place body node)
  rw [insertType, inserted]
  rfl

variable {site : Site} (handles : Handles parseBody site.child)

include handles

theorem insertNamespace_isSome (body : (site.child.getChildByFieldName .body).isSome) :
    (insertNamespace extraction parseBody sRoot sRootDesc builder site).isSome := by
  obtain ⟨eols, found⟩ := Option.isSome_iff_exists.mp (TsNode.beforeFirstChildEOLs_isSome body)
  have inserted := @insertComposite_isSome _ builder sRoot sRootDesc _ _ handles (.inl rfl) body
  rw [insertNamespace, Site.parseNamespaceNode, found]
  obtain ⟨built, called⟩ := Option.isSome_iff_exists.mp (inserted _)
  dsimp only [bind, Option.bind, pure]
  rw [called]
  rfl

theorem insertFunction_isSome (isFunction : site.child.type = .functionDefinition)
    (parsable : site.child.parsable = true) :
    (insertFunction extraction parseBody sRoot sRootDesc builder site).isSome := by
  rw [TsNode.parsable, isFunction] at parsable
  dsimp only at parsable
  unfold insertFunction
  split
  · rename_i type found
    rw [found] at parsable
    dsimp only at parsable
    split at parsable
    · rename_i isNamespace
      rw [if_pos isNamespace]
      exact insertNamespace_isSome handles parsable
    · rename_i isNamespace
      obtain ⟨declarator, isDeclarator⟩ := Option.isSome_iff_exists.mp parsable
      rw [if_neg isNamespace, Site.parseFuncDefNode, isDeclarator]
      rfl
  · split <;> rfl

theorem insertTemplate_isSome (isTemplate : site.child.type = .templateDeclaration)
    (parsable : site.child.parsable = true) :
    (insertTemplate extraction parseBody sRoot sRootDesc builder site).isSome := by
  rw [TsNode.parsable, isTemplate] at parsable
  dsimp only at parsable
  unfold insertTemplate
  split
  · rename_i inner isClass found
    rw [found] at parsable
    simp only [Option.all_some] at parsable
    have place : inner = site.child ∨ inner ∈ site.child.children := by
      obtain ⟨childChild, member, chosen⟩ := List.exists_of_findSome?_eq_some found
      refine .inr ?_
      split at chosen
      · obtain ⟨rfl, -⟩ := Prod.mk.inj (Option.some.inj chosen)
        exact member
      · split at chosen
        · obtain ⟨rfl, -⟩ := Prod.mk.inj (Option.some.inj chosen)
          exact member
        · exact absurd chosen nofun
    split
    · rfl
    · rename_i noBody
      have body : (inner.getChildByFieldName .body).isSome := by
        rwa [← Option.not_isNone, Bool.not_eq_true', ← Bool.not_eq_true]
      split
      · obtain ⟨eols, eolsFound⟩ :=
          Option.isSome_iff_exists.mp (TsNode.beforeFirstChildEOLs_isSome body)
        have inserted := @insertType_isSome _ builder sRoot sRootDesc _ _ handles place body
        rw [Site.parseTypeDeclNode, eolsFound]
        obtain ⟨built, called⟩ := Option.isSome_iff_exists.mp (inserted _)
        dsimp only [bind, Option.bind, pure]
        rw [called]
        rfl
      · rename_i noClass
        have isDeclarator : (inner.getChildByFieldName .declarator).isSome = true := by
          simpa [noClass, noBody] using parsable
        obtain ⟨declarator, found⟩ := Option.isSome_iff_exists.mp isDeclarator
        rw [Site.parseFuncDefNode, found]
        rfl
  · rfl

theorem insertComplex_isSome (parsable : site.child.parsable = true) :
    (insertComplex extraction parseBody sRoot sRootDesc builder site).isSome := by
  unfold insertComplex
  dsimp only
  split
  · rename_i missing
    split
    · rename_i isLinkage
      rw [TsNode.parsable, isLinkage] at parsable
      dsimp only at parsable
      rw [missing] at parsable
      exact absurd parsable nofun
    · rfl
  · rename_i body found
    have isBody : (site.child.getChildByFieldName .body).isSome := by rw [found]; rfl
    obtain ⟨eols, eolsFound⟩ :=
      Option.isSome_iff_exists.mp (TsNode.beforeFirstChildEOLs_isSome isBody)
    have inserted :=
      @insertComposite_isSome _ builder sRoot sRootDesc _ _ handles (.inl rfl) isBody
    split
    · have insertedType :=
        @insertType_isSome _ builder sRoot sRootDesc _ _ handles (.inl rfl) isBody
      rw [Site.parseTypeDeclNode, eolsFound]
      obtain ⟨built, called⟩ := Option.isSome_iff_exists.mp (insertedType _)
      dsimp only [bind, Option.bind, pure]
      rw [called]
      rfl
    · split
      · split
        · rfl
        · rw [Site.parseLinkageSpecNode, eolsFound]
          obtain ⟨built, called⟩ := Option.isSome_iff_exists.mp (inserted _)
          dsimp only [bind, Option.bind, pure]
          rw [called]
          rfl
      · rw [Site.parseEnumNode, eolsFound]
        obtain ⟨built, called⟩ := Option.isSome_iff_exists.mp (inserted _)
        dsimp only [bind, Option.bind, pure]
        rw [called]
        rfl

/-- A child that can be parsed is handled. -/
theorem parseChild_isSome (parsable : site.child.parsable = true) :
    (parseChild extraction parseBody sRoot sRootDesc builder site).isSome := by
  unfold parseChild
  dsimp only
  split
  · rename_i isComposite
    have isNamespace : site.child.type = .namespaceDefinition := by
      simpa [CompositeTypes] using isComposite
    rw [TsNode.parsable, isNamespace] at parsable
    exact insertNamespace_isSome handles parsable
  · split
    · split
      · rfl
      · split
        · rfl
        · split
          · rfl
          · split
            · rename_i isFunction
              exact insertFunction_isSome handles isFunction parsable
            · split
              · rename_i isTemplate
                exact insertTemplate_isSome handles isTemplate parsable
              · split
                · split <;> rfl
                · rfl
    · split
      · exact insertComplex_isSome handles parsable
      · rfl

end Returns

section Loop

variable {std : StdHash} {extraction : Extraction} {isConflicting : Bool} {tuPath : String}

theorem parseChildren_isSome {parseBody : ParseBody} {sRoot : NodeRef} {sRootDesc : Nat}
    {children : List TsNode} (handles : ∀ child ∈ children, Handles parseBody child)
    (parsable : ∀ child ∈ children, child.parsable = true) (builder : GraphBuilder)
    (previous : List TsNode) (skipped : Nat) :
    (parseChildren std extraction parseBody sRoot sRootDesc isConflicting tuPath builder previous
      skipped children).isSome := by
  induction children generalizing builder previous skipped with
  | nil =>
    rw [parseChildren]
    rfl
  | cons child rest inductionHypothesis =>
    have later := inductionHypothesis
      (fun other member => handles other (List.mem_cons_of_mem _ member))
      (fun other member => parsable other (List.mem_cons_of_mem _ member))
    cases skipped with
    | succ skipped =>
      rw [parseChildren]
      exact later ..
    | zero =>
      rw [parseChildren]
      obtain ⟨⟨built, skip⟩, parsed⟩ := Option.isSome_iff_exists.mp (@parseChild_isSome extraction
        parseBody builder sRoot sRootDesc
        (siteAt std sRoot isConflicting tuPath builder previous child rest)
        (handles child List.mem_cons_self) (parsable child List.mem_cons_self))
      rw [parsed]
      exact later ..

/-- Fuel for the height of the tree is enough. -/
theorem parseCompositeNode_isSome {fuel : Nat} {root : TsNode} (readable : root.Readable)
    (enough : root.height ≤ fuel) (builder : GraphBuilder) (sRoot : NodeRef) (sRootDesc : Nat)
    (firstChildIdx : Nat) :
    (parseCompositeNode std extraction isConflicting tuPath fuel builder sRoot sRootDesc root
      firstChildIdx).isSome := by
  induction fuel generalizing root builder sRoot sRootDesc firstChildIdx with
  | zero =>
    obtain ⟨_, _, _, _, _, _, children⟩ := root
    exact absurd enough (Nat.not_succ_le_zero _)
  | succ fuel inductionHypothesis =>
    rw [parseCompositeNode]
    have below : ∀ child ∈ root.children.drop firstChildIdx, child ∈ root.children :=
      fun child member => List.mem_of_mem_drop member
    refine parseChildren_isSome (fun child member => ?_) (fun child member => ?_) ..
    · have isChild := below child member
      have childReadable := readable.child isChild
      have less := TsNode.height_lt isChild
      intro inner body place found builder cur curDesc
      have isBody := TsNode.mem_of_getChildByFieldName found
      have lessBody := TsNode.height_lt isBody
      rcases place with rfl | inside
      · exact inductionHypothesis (childReadable.child isBody) (by omega) ..
      · have lessInner := TsNode.height_lt inside
        exact inductionHypothesis ((childReadable.child inside).child isBody) (by omega) ..
    · exact readable child (TsNode.nodes_subset (below child member) child.self_mem_nodes)

end Loop

/-- The trees of the sources are readable, and headers have more than the comments that they begin
with. -/
def BuildTask.Readable (task : BuildTask) : Prop :=
  ∀ path ∈ task.sourceList, (IsCppSource path || IsCSource path) = true →
    ∀ root ∈ task.parse (task.filePath path), root.Readable ∧
      (IsCppHeader (task.filePath path) = true →
        root.getTranslationUnitComment.1 < root.children.length)

/-- A builder that has made nothing yet; there may be objects of others. -/
structure Unused (builder : GraphBuilder) : Prop where
  nodeCount : builder.nodeCount = 0
  edgeCount : builder.edgeCount = 0
  vertices : builder.vertices = []
  edges : builder.edges = []

/-! ## A class in a namespace -/

/-- A node on one row. -/
def plainNode (type : TsKind) (text : String) (row : UInt32) (field : Option TsField)
    (children : List TsNode) : TsNode :=
  .mk type true text.toList ⟨row, 0⟩ ⟨row, 0⟩ field children

/-- A namespace with an inclusion in it and a class with a private member. -/
def buttonSource : TsNode :=
  plainNode .translationUnit "" 0 none
    [plainNode .namespaceDefinition "" 0 none
      [plainNode (.other "declaration_list".toList) "" 1 (some .body)
        [plainNode .preprocInclude "#include \"impl.inc\"" 2 none [],
          plainNode .classSpecifier "" 3 none
            [plainNode (.other "field_declaration_list".toList) "" 3 (some .body)
              [plainNode .accessSpecifier "private" 4 none [],
                plainNode .fieldDeclaration "int width;" 5 none []]]]]]

def buttonTask : BuildTask where
  sourceDir := "/ours/".toList
  projectPath := "/project/".toList
  conflictPaths := ["button.cpp".toList]
  sourceList := ["button.cpp".toList]
  parse path := if path = "/ours/button.cpp".toList then some buttonSource else none

/-- Nothing is known of a node but its text. -/
def noExtraction : Extraction where
  describe _ _ := {}
  displayName _ _ := []

def emptyBuilder : GraphBuilder where
  heap _ := {}
  fields := { displayName := fun _ => [], nsComment := fun _ => [], startColumn := fun _ => 0 }
  specifierText _ := []
  nextRef := 0

theorem emptyBuilder_unused : emptyBuilder.Unused := ⟨rfl, rfl, rfl, rfl⟩

theorem buttonTask_parse {root : TsNode}
    (isRoot : root ∈ buttonTask.parse (buttonTask.filePath "button.cpp".toList)) :
    root = buttonSource :=
  (Option.some.inj isRoot).symm

theorem buttonTask_readable : buttonTask.Readable := by
  intro path listed _ root isRoot
  obtain rfl := List.mem_singleton.mp listed
  obtain rfl := buttonTask_parse isRoot
  refine ⟨by decide, fun isHeader => absurd isHeader (by decide)⟩

/-! ## The sources -/

section Sources

variable {task : BuildTask} {std : StdHash} {extraction : Extraction}

/-- The body of a file is the file, or the guarded part of it. -/
theorem BuildTask.guarded_root {path : Text} {root : TsNode} {commentCnt : Nat}
    {guard : TsNode.HeaderGuard} (isGuard : task.guarded path root commentCnt = some guard) :
    guard.root = root ∨ guard.root ∈ root.children := by
  unfold guarded at isGuard
  split at isGuard
  · unfold TsNode.getHeaderGuard at isGuard
    obtain ⟨node, found, isGuard⟩ := Option.bind_eq_some_iff.mp isGuard
    have member := List.mem_of_getElem? found
    split at isGuard
    · obtain rfl := Option.some.inj isGuard
      exact .inl rfl
    · split at isGuard
      · split at isGuard
        · split at isGuard
          · obtain rfl := Option.some.inj isGuard
            exact .inr member
          · obtain rfl := Option.some.inj isGuard
            exact .inl rfl
        · obtain rfl := Option.some.inj isGuard
          exact .inl rfl
      · obtain rfl := Option.some.inj isGuard
        exact .inl rfl
  · obtain rfl := Option.some.inj isGuard
    exact .inl rfl

theorem BuildTask.parseTranslationUnit_root {path : Text} {root turoot : TsNode} {node : NewNode}
    {frontDeclCnt : Nat}
    (isUnit : task.parseTranslationUnit path root = some (node, turoot, frontDeclCnt)) :
    turoot = root ∨ turoot ∈ root.children := by
  unfold parseTranslationUnit at isUnit
  dsimp only at isUnit
  obtain ⟨guard, isGuard, ended⟩ := Option.bind_eq_some_iff.mp isUnit
  obtain ⟨-, same⟩ := Prod.mk.inj (Option.some.inj ended)
  obtain ⟨rfl, -⟩ := Prod.mk.inj same
  exact guarded_root isGuard

theorem BuildTask.guarded_isSome {path : Text} {root : TsNode} {commentCnt : Nat}
    (more : IsCppHeader (task.filePath path) = true → commentCnt < root.children.length) :
    (task.guarded path root commentCnt).isSome := by
  unfold guarded
  split
  · rename_i isHeader
    obtain ⟨node, found⟩ : ∃ node, root.children[commentCnt]? = some node :=
      ⟨_, List.getElem?_eq_getElem (more isHeader)⟩
    rw [TsNode.getHeaderGuard, found]
    dsimp only [bind, Option.bind]
    split
    · rfl
    · split
      · split
        · split <;> rfl
        · rfl
      · rfl
  · rfl

theorem BuildTask.processTranslationUnit_isSome {path : Text}
    (readable : (IsCppSource path || IsCSource path) = true →
      ∀ root ∈ task.parse (task.filePath path), root.Readable ∧
        (IsCppHeader (task.filePath path) = true →
          root.getTranslationUnitComment.1 < root.children.length)) (builder : GraphBuilder) :
    (task.processTranslationUnit std extraction builder path).isSome := by
  unfold processTranslationUnit
  split
  · rename_i root found
    split
    · rename_i isSource
      obtain ⟨rootReadable, more⟩ := readable isSource root found
      obtain ⟨guard, isGuard⟩ := Option.isSome_iff_exists.mp
        (@guarded_isSome task path root _ more)
      have place := guarded_root isGuard
      have turootReadable : guard.root.Readable := by
        rcases place with same | inside
        · rwa [same]
        · exact rootReadable.child inside
      have enough : guard.root.height ≤ root.height := by
        rcases place with same | inside
        · rw [same]
        · exact (TsNode.height_lt inside).le
      unfold processCppTranslationUnit parseTranslationUnit
      dsimp only
      rw [isGuard]
      exact parseCompositeNode_isSome turootReadable enough ..
    · rfl
  · rfl

/-- A graph is built of readable sources. -/
theorem BuildTask.build_isSome (readable : task.Readable) (builder : GraphBuilder) :
    (task.build std extraction builder).isSome := by
  have returns : ∀ (sources : List Text) (builder : GraphBuilder),
      (∀ path ∈ sources, path ∈ task.sourceList) →
        (sources.foldlM (task.processTranslationUnit std extraction) builder).isSome := by
    intro sources
    induction sources with
    | nil => exact fun _ _ => rfl
    | cons path rest inductionHypothesis =>
      intro builder listed
      obtain ⟨middle, processed⟩ := Option.isSome_iff_exists.mp
        (@processTranslationUnit_isSome task std extraction path
          (readable path (listed path List.mem_cons_self)) builder)
      rw [List.foldlM_cons, processed]
      exact inductionHypothesis middle fun other member =>
        listed other (List.mem_cons_of_mem _ member)
  exact returns task.sourceList builder fun _ member => member

theorem buttonTask_built :
    ∃ built, buttonTask.build .polynomial noExtraction emptyBuilder = some built :=
  Option.isSome_iff_exists.mp rfl

/-! ## The graph is a forest -/

variable {builder built : GraphBuilder}

theorem Unused.forest (unused : builder.Unused) : Built builder.nextRef builder := by
  obtain ⟨nodeCount, -, vertices, -⟩ := unused
  constructor
  case started => exact Nat.le_refl _
  case whole => exact fun ref later early => absurd early (Nat.not_lt_of_le later)
  case count => rw [nodeCount, vertices, List.length_nil]
  all_goals simp [vertices]

theorem Unused.edges_ (unused : builder.Unused) : EdgesBuilt builder := by
  obtain ⟨-, edgeCount, vertices, edges⟩ := unused
  constructor <;> simp [edges, edgeCount, vertices]

/-- An object is a translation unit, or a child of an object. -/
theorem RepresentsSources.owned {low high : NodeRef} {paths : List Text}
    (sources : RepresentsSources task built low paths high) :
    ∀ ref, low ≤ ref → ref < high →
      (built.heap ref).kind = .translationUnit ∨
        (built.heap ref).kind ≠ .translationUnit ∧
          ∃ above, low ≤ above ∧ above < high ∧ ref ∈ (built.heap above).children := by
  induction sources with
  | done => exact fun ref later early => absurd early (Nat.not_lt_of_le later)
  | passed _ _ inductionHypothesis => exact inductionHypothesis
  | @unit low middle high _ _ _ _ _ _ _ _ isUnit _ _ isRecord represents later
      inductionHypothesis =>
    have up := represents.le
    have down := later.le
    intro ref lower upper
    rcases Nat.eq_or_lt_of_le lower with rfl | beyond
    · obtain ⟨id, record⟩ := isRecord
      refine .inl ?_
      rw [record]
      exact BuildTask.parseTranslationUnit_kind isUnit
    · rcases Nat.lt_or_ge ref middle with inside | behind
      · refine .inr ⟨represents.noUnit ref beyond inside, ?_⟩
        rcases represents.owned ref beyond inside with onTop | ⟨above, first, last, isChild⟩
        · exact ⟨low, Nat.le_refl _, Nat.lt_of_succ_le (up.trans down), onTop⟩
        · exact ⟨above, Nat.le_of_succ_le first, last.trans_le down, isChild⟩
      · refine (inductionHypothesis ref behind upper).imp_right ?_
        rintro ⟨noUnit, above, first, last, isChild⟩
        exact ⟨noUnit, above, (Nat.le_of_succ_le up).trans first, last, isChild⟩

/-- No child is a translation unit. -/
theorem RepresentsSources.noUnit {low high : NodeRef} {paths : List Text}
    (sources : RepresentsSources task built low paths high) :
    ∀ above, low ≤ above → above < high → ∀ ref ∈ (built.heap above).children,
      (built.heap ref).kind ≠ .translationUnit := by
  induction sources with
  | done => exact fun above later early => absurd early (Nat.not_lt_of_le later)
  | passed _ _ inductionHypothesis => exact inductionHypothesis
  | @unit low middle _ _ _ _ _ _ _ _ _ _ _ _ _ represents _ inductionHypothesis =>
    intro above lower upper
    rcases Nat.eq_or_lt_of_le lower with rfl | beyond
    · intro ref isChild
      obtain ⟨first, last⟩ := represents.bounds ref isChild
      exact represents.noUnit ref first last
    · rcases Nat.lt_or_ge above middle with inside | behind
      · exact represents.childNoUnit above beyond inside
      · exact inductionHypothesis above behind upper

/-- A graph is a forest over its vertices, with an edge from every parent to every child; the
translation units are its roots. -/
theorem BuildTask.build_forest (unused : builder.Unused)
    (finished : task.build std extraction builder = some built) :
    Built builder.nextRef built ∧ EdgesBuilt built ∧
      ∀ ref ∈ built.vertices,
        (built.heap ref).parent = none ↔ (built.heap ref).kind = .translationUnit := by
  obtain ⟨reaches, -, -, sources⟩ := build_grows finished
  have forest := unused.forest.run reaches
  refine ⟨forest, unused.edges_.run unused.forest reaches, fun ref isVertex => ?_⟩
  obtain ⟨later, early⟩ := forest.bounds ref isVertex
  constructor
  · intro rootless
    refine (sources.owned ref later early).resolve_right ?_
    rintro ⟨-, above, first, last, isChild⟩
    have aboveVertex : above ∈ built.vertices := by
      refine (forest.whole above first last).resolve_right fun isLabel => ?_
      rw [isLabel] at isChild
      exact absurd isChild List.not_mem_nil
    rcases (forest.child above aboveVertex ref isChild).2.2 with ⟨-, up⟩ | ⟨outside, -⟩
    · rw [up] at rootless
      exact absurd rootless nofun
    · exact outside isVertex
  · intro isUnit
    cases up : (built.heap ref).parent with
    | none => rfl
    | some above =>
      obtain ⟨aboveVertex, isChild⟩ := forest.parent ref isVertex above up
      obtain ⟨first, last⟩ := forest.bounds above aboveVertex
      exact absurd isUnit (sources.noUnit above first last ref isChild)

theorem buttonTask_forest :
    ∃ built, buttonTask.build .polynomial noExtraction emptyBuilder = some built ∧
      Built 0 built ∧ EdgesBuilt built ∧
      ∀ ref ∈ built.vertices,
        (built.heap ref).parent = none ↔ (built.heap ref).kind = .translationUnit := by
  obtain ⟨built, finished⟩ := buttonTask_built
  exact ⟨built, finished, BuildTask.build_forest emptyBuilder_unused finished⟩

/-! ## The access of members -/

/-- The access specifiers of the sources name an access. -/
def BuildTask.NamesAccess (task : BuildTask) : Prop :=
  ∀ path ∈ task.sourceList, ∀ root ∈ task.parse (task.filePath path), ∀ node ∈ root.nodes,
    node.type = .accessSpecifier → NamesKeyword node.text

theorem buttonTask_names : buttonTask.NamesAccess := by
  intro path listed root isRoot
  obtain rfl := List.mem_singleton.mp listed
  obtain rfl := buttonTask_parse isRoot
  intro node isNode isSpecifier
  refine ⟨"private".toList, by decide, ?_⟩
  have text : ∀ node ∈ buttonSource.nodes, node.type = .accessSpecifier →
      node.text = "private".toList := by decide
  rw [text node isNode isSpecifier]

theorem RepresentsSources.accessSet {low high : NodeRef} {paths : List Text}
    (sources : RepresentsSources task built low paths high)
    (listed : ∀ path ∈ paths, path ∈ task.sourceList) (names : task.NamesAccess) :
    ∀ ref, low ≤ ref → ref < high →
      ((built.heap ref).kind = .type →
        TypeDeclNode.MemberAccessSet built.specifierText built.heap ref) ∧
      ((built.heap ref).kind = .accessSpecifier → NamesKeyword (built.specifierText ref)) := by
  induction sources with
  | done => exact fun ref later early => absurd early (Nat.not_lt_of_le later)
  | passed _ _ inductionHypothesis =>
    exact inductionHypothesis fun path member => listed path (List.mem_cons_of_mem _ member)
  | @unit low middle _ path _ root turoot _ _ parsed isSource isUnit _ _ isRecord represents _
      inductionHypothesis =>
    intro ref lower upper
    rcases Nat.eq_or_lt_of_le lower with rfl | beyond
    · obtain ⟨id, record⟩ := isRecord
      rw [record]
      dsimp only
      rw [BuildTask.parseTranslationUnit_kind isUnit]
      exact ⟨nofun, nofun⟩
    · rcases Nat.lt_or_ge ref middle with inside | behind
      · refine represents.accessSet (fun child member inner isInner isSpecifier => ?_) ref beyond
          inside
        refine names path (listed path List.mem_cons_self) root parsed inner ?_ isSpecifier
        have inTuroot := TsNode.nodes_subset (List.mem_of_mem_drop member) isInner
        rcases BuildTask.parseTranslationUnit_root isUnit with same | isChild
        · rwa [same] at inTuroot
        · exact TsNode.nodes_subset isChild inTuroot
      · exact inductionHypothesis
          (fun path member => listed path (List.mem_cons_of_mem _ member)) ref behind upper

/-- In a graph that is built the members of every type have the access of the last label in front
of them, and those in front of all labels have none that is printed. -/
theorem BuildTask.build_access (unused : builder.Unused) (names : task.NamesAccess)
    (finished : task.build std extraction builder = some built) :
    ∀ type ∈ built.vertices, (built.heap type).kind = .type →
      TypeDeclNode.UnderLabels built.specifierText built.heap type ∧
        (built.heap type).children.Pairwise (InSections built.heap) := by
  obtain ⟨reaches, -, -, sources⟩ := build_grows finished
  have forest := unused.forest.run reaches
  have access := sources.accessSet (fun _ member => member) names
  intro type isVertex isType
  obtain ⟨later, early⟩ := forest.bounds type isVertex
  have set := (access type later early).1 isType
  have distinct : (built.heap type).children.Nodup :=
    (forest.siblings type isVertex).imp fun less => Nat.ne_of_lt less
  refine ⟨set.underLabels distinct, set.inSections distinct fun child isChild isLabel => ?_⟩
  · obtain ⟨below, inside, -⟩ := forest.child type isVertex child isChild
    exact (access child (later.trans below.le) inside).2 isLabel

theorem buttonTask_access :
    ∃ built, buttonTask.build .polynomial noExtraction emptyBuilder = some built ∧
      ∀ type ∈ built.vertices, (built.heap type).kind = .type →
        TypeDeclNode.UnderLabels built.specifierText built.heap type ∧
          (built.heap type).children.Pairwise (InSections built.heap) := by
  obtain ⟨built, finished⟩ := buttonTask_built
  exact ⟨built, finished, BuildTask.build_access emptyBuilder_unused buttonTask_names finished⟩

end Sources

end GraphBuilder

end MergeBot
