import MergeBot.Semantic.GraphMerger

/-!
# The merged record of one node

What the merge of three records keeps, and what it takes from which side:
`unmerged` fields are never written, a text that one side left alone is the
other side's text, and a node whose texts nobody changed keeps its identity.
-/

namespace MergeBot

namespace GraphMerger

variable (M : GraphMerger)

/-- The merged record of a node, its children aside. -/
def mergeRecord (our base their : SemanticNode) : SemanticNode :=
  if base.kind.isTerminal then M.mergeTerminal our base their
  else M.mergeComposite our base their

/-- The fields of a record that no merge writes. -/
def unmerged (node : SemanticNode) : SemanticNode :=
  { kind := node.kind
    id := node.id
    needToMerge := node.needToMerge
    usr := node.usr
    isSynthetic := node.isSynthetic
    parent := node.parent
    anonymous := node.anonymous
    tuPath := node.tuPath
    parentSignatureHash := node.parentSignatureHash
    declarator := node.declarator
    isFieldDecl := node.isFieldDecl
    parameterTypes := node.parameterTypes }

/-- A record without the parts of a function's signature. -/
def apartFromSignature (node : SemanticNode) : SemanticNode :=
  { node with
    sigUnchanged := false
    templateParameterList := ""
    defType := .plain
    attrs := ""
    beforeFuncName := ""
    parameterList := []
    initList := []
    afterParameterList := "" }

/-- Merging the parts of a signature writes nothing else. -/
theorem mergeSignatureParts_apart (our node their : SemanticNode) :
    apartFromSignature (M.mergeSignatureParts our node their) = apartFromSignature node := by
  unfold mergeSignatureParts mergeFunction
  split
  · split
    · rfl
    · split <;> rfl
  · rfl

/-- Merging a terminal writes only merged fields. -/
theorem mergeTerminal_unmerged (our base their : SemanticNode) :
    unmerged (M.mergeTerminal our base their) = unmerged base := by
  have parts := M.mergeSignatureParts_apart our (M.mergeTerminalTexts our base their) their
  have same := congrArg unmerged parts
  exact same

/-- Merging a composite writes only merged fields. -/
theorem mergeComposite_unmerged (our base their : SemanticNode) :
    unmerged (M.mergeComposite our base their) = unmerged base := by
  have unit : unmerged (mergeTranslationUnit our base their) = unmerged base := by
    unfold mergeTranslationUnit
    split <;> rfl
  exact unit

/-- Merging writes only merged fields. -/
theorem mergeRecord_unmerged (our base their : SemanticNode) :
    unmerged (M.mergeRecord our base their) = unmerged base := by
  unfold mergeRecord
  split_ifs
  · exact M.mergeTerminal_unmerged our base their
  · exact M.mergeComposite_unmerged our base their

/-- A merged node has the access it has on our side. -/
theorem mergeRecord_accessSpecifier (our base their : SemanticNode) :
    (M.mergeRecord our base their).accessSpecifier = our.accessSpecifier := by
  have parts := M.mergeSignatureParts_apart our (M.mergeTerminalTexts our base their) their
  have access := congrArg SemanticNode.accessSpecifier parts
  unfold mergeRecord
  split
  · exact access
  · rfl

/-- A text that our side left alone is theirs. -/
theorem mergeText_our_same {our base : String} (their : String) (same : our = base) :
    M.mergeText our base their = their :=
  if_pos same

/-- A text that their side left alone is ours. -/
theorem mergeText_their_same (our : String) {base their : String} (same : their = base) :
    M.mergeText our base their = our := by
  unfold mergeText
  split_ifs with ourSame
  · exact same.trans ourSame.symm
  · rfl

/-- Texts are merged one by one. -/
theorem mergeRecord_texts (our base their : SemanticNode) :
    (M.mergeRecord our base their).comment =
        M.mergeText our.comment base.comment their.comment ∧
      (M.mergeRecord our base their).originalSignature =
        M.mergeText our.originalSignature base.originalSignature their.originalSignature ∧
      (base.kind.isTerminal = true → (M.mergeRecord our base their).body =
        M.mergeText our.body base.body their.body) := by
  have parts := M.mergeSignatureParts_apart our (M.mergeTerminalTexts our base their) their
  have comment := congrArg SemanticNode.comment parts
  have body := congrArg SemanticNode.body parts
  unfold mergeRecord
  split_ifs with terminal
  · exact ⟨comment, rfl, fun _ => body⟩
  · exact ⟨rfl, rfl, fun composite => absurd composite terminal⟩

/-- The fields of a record that its identity depends on. -/
def identityFields (node : SemanticNode) : SemanticNode :=
  { kind := node.kind
    id := node.id
    qualifiedName := node.qualifiedName
    usr := node.usr
    anonymous := node.anonymous
    tuPath := node.tuPath
    parentSignatureHash := node.parentSignatureHash
    body := node.body
    isFieldDecl := node.isFieldDecl
    parameterTypes := node.parameterTypes
    afterParameterList := node.afterParameterList
    defType := node.defType }

/-- Of the identity of a composite only the name may change. -/
theorem mergeComposite_identity (our base their : SemanticNode) :
    identityFields (M.mergeComposite our base their) =
      { identityFields base with
        qualifiedName := M.mergeText our.qualifiedName base.qualifiedName
          their.qualifiedName } := by
  have unit : identityFields (mergeTranslationUnit our base their) = identityFields base := by
    unfold mergeTranslationUnit
    split_ifs <;> rfl
  rw [← unit]
  rfl

/-- Two records with the same texts. -/
structure SameTexts (first second : SemanticNode) : Prop where
  comment : first.comment = second.comment
  originalSignature : first.originalSignature = second.originalSignature
  qualifiedName : first.qualifiedName = second.qualifiedName
  body : first.body = second.body

/-- A node whose texts nobody changed keeps its identity. -/
theorem mergeRecord_same {our base their : SemanticNode} (ourSame : SameTexts our base)
    (theirSame : SameTexts their base) :
    identityFields (M.mergeRecord our base their) = identityFields base := by
  have parts : ∀ node : SemanticNode, node.originalSignature = our.originalSignature →
      identityFields (M.mergeSignatureParts our node their) = identityFields node := by
    intro node unchanged
    unfold mergeSignatureParts mergeFunction
    rw [if_pos (Or.inl unchanged)]
    split <;> rfl
  unfold mergeRecord
  split_ifs
  · have texts : identityFields (M.mergeTerminalTexts our base their) = identityFields base := by
      simp only [identityFields, mergeTerminalTexts, M.mergeText_our_same _ ourSame.body,
        M.mergeText_our_same _ ourSame.qualifiedName, theirSame.body, theirSame.qualifiedName]
    exact (parts (M.mergeTerminalTexts our base their) ourSame.originalSignature.symm).trans texts
  · rw [mergeComposite_identity, M.mergeText_our_same _ ourSame.qualifiedName,
      theirSame.qualifiedName]
    rfl

end GraphMerger

end MergeBot
