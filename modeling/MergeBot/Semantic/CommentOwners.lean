import Mathlib.Data.List.Chain
import Mathlib.Data.List.DropRight
import MergeBot.Conflict.Scanner
import MergeBot.Foundation.Placement

/-!
# Owners of comments

`parseCompositeNode` makes semantic nodes of the siblings in a syntax tree. `getComment`
looks ahead from a comment and makes it an orphan with those that follow, and
`getNodeComment` looks back from a node and takes the comments in front of it.
`parseCompositeNode_owns_once_iff` says where the two agree: not when a blank line separates
a comment from the node behind it, and not when two comments of a run are on one row.
-/

namespace MergeBot

/-! ## The siblings and what becomes of them -/

/-- A child of a syntax node that is a comment or becomes a semantic node. -/
structure Sibling where
  isComment : Bool
  text : Text
  startRow : UInt32
  endRow : UInt32
deriving DecidableEq, Repr

/-- A semantic node, with its comment, or an orphan comment. -/
inductive SemanticChild where
  | orphanComment (comment : Text) (followingEOLs : Nat)
  | node (comment : Text) (sibling : Sibling)
deriving DecidableEq, Repr

/-- The texts of comments, each on a line. -/
def commentText (comments : List Sibling) : Text :=
  comments.flatMap fun comment => comment.text ++ ['\n']

/-- The comments from one on, whether they are an orphan, and their number. The subtraction of
rows wraps as in the code. -/
def collectComments (orphan : Bool) (curComment : Sibling) : List Sibling → Bool × Text × Nat
  | [] => (true, curComment.text ++ ['\n'], 1)
  | sibling :: rest =>
      if sibling.isComment then
        let (found, comment, commentCnt) := collectComments orphan sibling rest
        (found, curComment.text ++ ['\n'] ++ comment, commentCnt + 1)
      else
        (if sibling.startRow - curComment.endRow > 1 then true else orphan,
          curComment.text ++ ['\n'], 1)

/-- A comment begins on the row where the sibling in front of it ends. -/
def onRowOf (prevNode : Option Sibling) (commentNode : Sibling) : Bool :=
  prevNode.any fun prevNode => prevNode.endRow = commentNode.startRow

/-- Whether a comment is an orphan, its text with the comments behind it, and their number. -/
def getComment (prevNode : Option Sibling) (commentNode : Sibling) (next : List Sibling) :
    Bool × Text × Nat :=
  collectComments (onRowOf prevNode commentNode) commentNode next

/-- The comments in front of a node; the nearest sibling comes first. -/
def getNodeComment (previous : List Sibling) : Text :=
  let previousComments := previous.takeWhile Sibling.isComment
  match previousComments.getLast? with
  | none => []
  | some mostPreviousComment =>
      -- fix for inline comment
      if onRowOf (previous.dropWhile Sibling.isComment).head? mostPreviousComment then []
      else commentText previousComments.reverse

/-- The semantic children of the siblings that are left; `previous` are those in front of them,
and the first `skipped` are comments of an orphan. -/
def parseCompositeNode : List Sibling → Nat → List Sibling → List SemanticChild
  | _, _, [] => []
  | previous, skipped + 1, child :: rest => parseCompositeNode (child :: previous) skipped rest
  | previous, 0, child :: rest =>
      if child.isComment then
        let (orphan, comment, commentCnt) := getComment previous.head? child rest
        if orphan then
          let followingEOLs := if onRowOf previous.head? child then 0 else 1
          .orphanComment comment followingEOLs ::
            parseCompositeNode (child :: previous) (commentCnt - 1) rest
        else parseCompositeNode (child :: previous) 0 rest
      else .node (getNodeComment previous) child :: parseCompositeNode (child :: previous) 0 rest

/-! ## Each comment once -/

/-- What a semantic child holds: the text of comments, and the node behind it. -/
def SemanticChild.held : SemanticChild → List (Char ⊕ Sibling)
  | orphanComment comment _ => comment.map .inl
  | node comment sibling => comment.map .inl ++ [.inr sibling]

/-- The text of a comment, or the node. -/
def Sibling.own (sibling : Sibling) : List (Char ⊕ Sibling) :=
  if sibling.isComment then (sibling.text ++ ['\n']).map .inl else [.inr sibling]

/-- The semantic children hold the text of each comment once, in front of the node that follows
it. -/
def OwnsOnce (siblings : List Sibling) : Prop :=
  (parseCompositeNode [] 0 siblings).flatMap SemanticChild.held = siblings.flatMap Sibling.own

/-- The rows of the siblings do not decrease. -/
structure RowsOrdered (siblings : List Sibling) : Prop where
  each : ∀ sibling ∈ siblings, sibling.startRow ≤ sibling.endRow
  next : siblings.IsChain fun sibling other => sibling.endRow ≤ other.startRow

/-- The comments that the siblings in front of a node end with begin on the row of the sibling
in front of them, or they are on rows of their own up to the node, without a blank line in front
of it. -/
def Attached (front : List Sibling) (node : Sibling) : Prop :=
  ∀ first ∈ (front.rtakeWhile Sibling.isComment).head?,
    ∀ last ∈ (front.rtakeWhile Sibling.isComment).getLast?,
      onRowOf (front.rdropWhile Sibling.isComment).getLast? first = true ∨
        node.startRow.toNat ≤ last.endRow.toNat + 1 ∧
          (front.rtakeWhile Sibling.isComment).IsChain fun comment other =>
            comment.endRow ≠ other.startRow

/-! ## One run of comments -/

/-- More than one row lies between a comment and the node. -/
def far (last node : Sibling) : Bool :=
  node.startRow - last.endRow > 1

theorem far_eq_false_iff {last node : Sibling} (ordered : last.endRow ≤ node.startRow) :
    far last node = false ↔ node.startRow.toNat ≤ last.endRow.toNat + 1 := by
  have distance := UInt32.toNat_sub_of_le _ _ ordered
  have rows := UInt32.le_iff_toNat_le.mp ordered
  rw [far, decide_eq_false_iff_not, gt_iff_lt, UInt32.lt_iff_toNat_lt, distance]
  have one : (1 : UInt32).toNat = 1 := rfl
  omega

@[simp]
theorem commentText_cons (comment : Sibling) (comments : List Sibling) :
    commentText (comment :: comments) = comment.text ++ ['\n'] ++ commentText comments := by
  simp [commentText]

/-- The comments up to a node. -/
theorem collectComments_run (orphan : Bool) (comment : Sibling) {comments : List Sibling}
    (run : ∀ other ∈ comments, other.isComment = true) {node : Sibling}
    (noComment : node.isComment = false) (rest : List Sibling) :
    collectComments orphan comment (comments ++ node :: rest) =
      (far (comments.getLastD comment) node || orphan, commentText (comment :: comments),
        comments.length + 1) := by
  induction comments generalizing comment with
  | nil => cases orphan <;> simp [collectComments, noComment, far, commentText]
  | cons next comments inductionHypothesis =>
      obtain ⟨isComment, others⟩ := List.forall_mem_cons.mp run
      rw [List.cons_append, collectComments, if_pos isComment, inductionHypothesis next others,
        List.getLastD_cons, commentText_cons comment, List.length_cons]

/-- Comments that no node follows are orphans. -/
theorem collectComments_end (orphan : Bool) (comment : Sibling) {comments : List Sibling}
    (run : ∀ other ∈ comments, other.isComment = true) :
    collectComments orphan comment comments =
      (true, commentText (comment :: comments), comments.length + 1) := by
  induction comments generalizing comment with
  | nil => simp [collectComments, commentText]
  | cons next comments inductionHypothesis =>
      obtain ⟨isComment, others⟩ := List.forall_mem_cons.mp run
      rw [collectComments, if_pos isComment, inductionHypothesis next others]
      simp

/-- The comments of an orphan are passed over. -/
theorem parseCompositeNode_skip (previous comments rest : List Sibling) :
    parseCompositeNode previous comments.length (comments ++ rest) =
      parseCompositeNode (comments.reverse ++ previous) 0 rest := by
  induction comments generalizing previous with
  | nil => rfl
  | cons comment comments inductionHypothesis =>
      rw [List.length_cons, List.cons_append, parseCompositeNode, inductionHypothesis]
      simp

section Run

variable (previous : List Sibling) {first : Sibling} {run : List Sibling}
  (isComment : first.isComment = true) (others : ∀ other ∈ run, other.isComment = true)
  {node : Sibling} (noComment : node.isComment = false) (rest : List Sibling)

include isComment others noComment

/-- Comments that are an orphan, and the node behind them. -/
theorem parseCompositeNode_orphan
    (orphan : (far (run.getLastD first) node || onRowOf previous.head? first) = true) :
    (parseCompositeNode previous 0 (first :: (run ++ node :: rest))).flatMap SemanticChild.held =
      (commentText (first :: run) ++ getNodeComment (run.reverse ++ first :: previous)).map .inl ++
        .inr node :: (parseCompositeNode (node :: (run.reverse ++ first :: previous)) 0
          rest).flatMap SemanticChild.held := by
  have found := collectComments_run (onRowOf previous.head? first) first others noComment rest
  rw [orphan] at found
  rw [parseCompositeNode, if_pos isComment, getComment, found]
  simp only [if_true, Nat.add_sub_cancel]
  rw [parseCompositeNode_skip, parseCompositeNode, noComment]
  simp [SemanticChild.held]

/-- A comment that is no orphan is left to the node. -/
theorem parseCompositeNode_left
    (joined : (far (run.getLastD first) node || onRowOf previous.head? first) = false) :
    parseCompositeNode previous 0 (first :: (run ++ node :: rest)) =
      parseCompositeNode (first :: previous) 0 (run ++ node :: rest) := by
  have found := collectComments_run (onRowOf previous.head? first) first others noComment rest
  rw [joined] at found
  rw [parseCompositeNode, if_pos isComment, getComment, found]
  simp only [Bool.false_eq_true, if_false]

end Run

/-- The orphan among the comments behind one that is none: the first that begins on the row of
the comment in front of it, with all that follow. -/
def touching : Sibling → List Sibling → List Sibling
  | _, [] => []
  | previous, comment :: comments =>
      if previous.endRow = comment.startRow then comment :: comments
      else touching comment comments

theorem touching_eq_nil_iff (previous : Sibling) (comments : List Sibling) :
    touching previous comments = [] ↔
      (previous :: comments).IsChain fun comment other => comment.endRow ≠ other.startRow := by
  induction comments generalizing previous with
  | nil => simp [touching]
  | cons comment comments inductionHypothesis =>
      rw [touching, List.isChain_cons_cons]
      split
      · rename_i same
        simp [same]
      · rename_i differ
        rw [inductionHypothesis]
        exact (and_iff_right differ).symm

/-- What the comments that are left become, up to the node. -/
theorem parseCompositeNode_pending (previous : List Sibling) {comment : Sibling}
    {comments : List Sibling} (run : ∀ other ∈ comments, other.isComment = true)
    {node : Sibling} (noComment : node.isComment = false)
    (near : far (comments.getLastD comment) node = false) (rest : List Sibling) :
    (parseCompositeNode (comment :: previous) 0 (comments ++ node :: rest)).flatMap
        SemanticChild.held =
      (commentText (touching comment comments) ++
          getNodeComment (comments.reverse ++ comment :: previous)).map .inl ++
        .inr node :: (parseCompositeNode (node :: (comments.reverse ++ comment :: previous)) 0
          rest).flatMap SemanticChild.held := by
  induction comments generalizing comment previous with
  | nil => simp [parseCompositeNode, noComment, touching, commentText, SemanticChild.held]
  | cons next comments inductionHypothesis =>
      obtain ⟨isComment, others⟩ := List.forall_mem_cons.mp run
      rw [List.getLastD_cons] at near
      rw [List.cons_append, touching]
      by_cases same : comment.endRow = next.startRow
      · have onRow : onRowOf (some comment) next = true := by simp [onRowOf, same]
        have orphan : (far (comments.getLastD next) node ||
            onRowOf (comment :: previous).head? next) = true := by
          rw [List.head?_cons, onRow, Bool.or_true]
        rw [if_pos same, parseCompositeNode_orphan _ isComment others noComment rest orphan]
        simp
      · have onRow : onRowOf (some comment) next = false := by simp [onRowOf, same]
        have joined : (far (comments.getLastD next) node ||
            onRowOf (comment :: previous).head? next) = false := by
          rw [List.head?_cons, onRow, near, Bool.or_false]
        rw [if_neg same, parseCompositeNode_left _ isComment others noComment rest joined,
          inductionHypothesis (comment :: previous) others near]
        simp

section Segment

variable {previous run : List Sibling}
  (clear : ∀ sibling ∈ previous.head?, sibling.isComment = false)
  (comments : ∀ comment ∈ run, comment.isComment = true)

include clear comments

/-- The comments in front of a node are cut off by the sibling in front of them. -/
theorem previous_run : (run.reverse ++ previous).takeWhile Sibling.isComment = run.reverse ∧
    (run.reverse ++ previous).dropWhile Sibling.isComment = previous := by
  have all : ∀ comment ∈ run.reverse, comment.isComment = true := fun comment member =>
    comments comment (List.mem_reverse.mp member)
  rw [List.takeWhile_append_of_pos all, List.dropWhile_append_of_pos all]
  cases previous with
  | nil => simp
  | cons sibling previous =>
      have other : sibling.isComment = false := clear sibling rfl
      simp [other]

/-- A node takes the comments in front of it unless they begin on the row of the sibling in front
of them. -/
theorem getNodeComment_run :
    getNodeComment (run.reverse ++ previous) =
      if run.head?.any (onRowOf previous.head?) then [] else commentText run := by
  obtain ⟨taken, dropped⟩ := previous_run clear comments
  simp only [getNodeComment, taken, dropped, List.getLast?_reverse, List.reverse_reverse]
  cases run with
  | nil => rfl
  | cons first run => rfl

/-- What attaches a run of comments. -/
theorem attached_run_iff (node : Sibling) :
    Attached (previous.reverse ++ run) node ↔
      ∀ first ∈ run.head?, ∀ last ∈ run.getLast?, onRowOf previous.head? first = true ∨
        node.startRow.toNat ≤ last.endRow.toNat + 1 ∧
          run.IsChain fun comment other => comment.endRow ≠ other.startRow := by
  obtain ⟨taken, dropped⟩ := previous_run clear comments
  simp only [Attached, List.rtakeWhile, List.rdropWhile, List.reverse_append,
    List.reverse_reverse, taken, dropped, List.getLast?_reverse]

/-- The children up to a node hold the comments in front of it once, and more unless they are
attached. -/
theorem parseCompositeNode_run {node : Sibling} (noComment : node.isComment = false)
    (ordered : ∀ last ∈ run.getLast?, last.endRow ≤ node.startRow) (rest : List Sibling) :
    ∃ extra : Text, (parseCompositeNode previous 0 (run ++ node :: rest)).flatMap
        SemanticChild.held =
      (extra ++ commentText run).map .inl ++ .inr node ::
        (parseCompositeNode (node :: (run.reverse ++ previous)) 0 rest).flatMap
          SemanticChild.held ∧
      (extra = [] ↔ Attached (previous.reverse ++ run) node) := by
  have taken := getNodeComment_run clear comments
  rw [attached_run_iff clear comments]
  cases run with
  | nil =>
      refine ⟨[], ?_, by simp⟩
      simp only [List.reverse_nil, List.nil_append, List.head?_nil] at taken
      simp [parseCompositeNode, noComment, SemanticChild.held, commentText, taken]
  | cons first run =>
      obtain ⟨isComment, others⟩ := List.forall_mem_cons.mp comments
      have isLast : (first :: run).getLast? = some (run.getLastD first) := by
        rw [List.getLast?_cons, List.getLastD_eq_getLast?]
      have near_iff := far_eq_false_iff (ordered _ isLast)
      simp only [isLast, List.head?_cons, Option.mem_some_iff, forall_eq', ← near_iff,
        Option.any_some] at taken ⊢
      rw [List.reverse_cons, List.append_assoc, List.singleton_append] at taken ⊢
      rw [List.cons_append]
      cases onRow : onRowOf previous.head? first with
      | true =>
          -- an orphan, and nothing is left for the node
          refine ⟨[], ?_, by simp⟩
          simp only [onRow, if_true] at taken
          rw [parseCompositeNode_orphan previous isComment others noComment rest
            (by rw [onRow, Bool.or_true]), taken]
          simp
      | false =>
      simp only [onRow, Bool.false_eq_true, if_false] at taken
      cases distance : far (run.getLastD first) node with
      | true =>
          -- an orphan, and the node takes the comments again
          refine ⟨commentText (first :: run), ?_, by simp⟩
          rw [parseCompositeNode_orphan previous isComment others noComment rest
            (by rw [distance, Bool.true_or]), taken]
      | false =>
          refine ⟨commentText (touching first run), ?_, ?_⟩
          · rw [parseCompositeNode_left previous isComment others noComment rest
                (by rw [distance, onRow, Bool.or_false]),
              parseCompositeNode_pending previous others noComment distance, taken]
          · rw [← touching_eq_nil_iff]
            cases touching first run with
            | nil => simp [commentText]
            | cons comment comments => simp

omit clear in
/-- Comments that no node follows become an orphan. -/
theorem parseCompositeNode_end (previous : List Sibling) :
    (parseCompositeNode previous 0 run).flatMap SemanticChild.held =
      (commentText run).map .inl := by
  cases run with
  | nil => rfl
  | cons first run =>
      obtain ⟨isComment, others⟩ := List.forall_mem_cons.mp comments
      have skip := parseCompositeNode_skip (first :: previous) run []
      rw [List.append_nil] at skip
      rw [parseCompositeNode, if_pos isComment, getComment,
        collectComments_end _ first others]
      simp only [if_true, Nat.add_sub_cancel]
      rw [skip]
      simp [parseCompositeNode, SemanticChild.held]

end Segment

/-! ## All siblings -/

/-- A list of siblings is a run of comments, or has a first node behind one. -/
theorem comments_or_node (siblings : List Sibling) :
    (∀ sibling ∈ siblings, sibling.isComment = true) ∨
      ∃ run node rest, siblings = run ++ node :: rest ∧
        (∀ comment ∈ run, comment.isComment = true) ∧ node.isComment = false := by
  induction siblings with
  | nil => exact .inl (by simp)
  | cons sibling siblings inductionHypothesis =>
      cases isComment : sibling.isComment with
      | false => exact .inr ⟨[], sibling, siblings, rfl, by simp, isComment⟩
      | true =>
          rcases inductionHypothesis with comments | ⟨run, node, rest, rfl, comments, other⟩
          · exact .inl (List.forall_mem_cons.mpr ⟨isComment, comments⟩)
          · exact .inr ⟨sibling :: run, node, rest, rfl,
              List.forall_mem_cons.mpr ⟨isComment, comments⟩, other⟩

/-- The comments in front of each node that is left are attached to it. -/
def AttachedFrom (previous siblings : List Sibling) : Prop :=
  ∀ front node back, siblings = front ++ node :: back → node.isComment = false →
    Attached (previous.reverse ++ front) node

theorem attachedFrom_cons_iff {previous : List Sibling} {sibling : Sibling}
    {siblings : List Sibling} :
    AttachedFrom previous (sibling :: siblings) ↔
      (sibling.isComment = false → Attached previous.reverse sibling) ∧
        AttachedFrom (sibling :: previous) siblings := by
  rw [AttachedFrom, AttachedFrom, Foundation.Placement.forall_place_cons, List.append_nil]
  simp only [List.reverse_cons, List.append_assoc, List.singleton_append]

/-- Comments in front of a node ask nothing by themselves. -/
theorem attachedFrom_run_iff (previous : List Sibling) {run : List Sibling}
    (comments : ∀ comment ∈ run, comment.isComment = true) {node : Sibling}
    (noComment : node.isComment = false) (rest : List Sibling) :
    AttachedFrom previous (run ++ node :: rest) ↔
      Attached (previous.reverse ++ run) node ∧
        AttachedFrom (node :: (run.reverse ++ previous)) rest := by
  induction run generalizing previous with
  | nil => simp [attachedFrom_cons_iff, noComment]
  | cons comment run inductionHypothesis =>
      obtain ⟨isComment, others⟩ := List.forall_mem_cons.mp comments
      rw [List.cons_append, attachedFrom_cons_iff, inductionHypothesis _ others]
      simp [isComment]

theorem flatMap_own {run : List Sibling}
    (comments : ∀ comment ∈ run, comment.isComment = true) :
    run.flatMap Sibling.own = (commentText run).map .inl := by
  induction run with
  | nil => rfl
  | cons comment run inductionHypothesis =>
      obtain ⟨isComment, others⟩ := List.forall_mem_cons.mp comments
      rw [List.flatMap_cons, inductionHypothesis others, commentText_cons, Sibling.own,
        if_pos isComment, ← List.map_append]

/-- The children hold all that is in the siblings, and no more exactly when the comments are
attached. The induction goes from node to node. -/
theorem parseCompositeNode_held (bound : Nat) (previous : List Sibling) {siblings : List Sibling}
    (short : siblings.length < bound)
    (clear : ∀ sibling ∈ previous.head?, sibling.isComment = false)
    (ordered : RowsOrdered siblings) :
    (siblings.flatMap Sibling.own).length ≤
        ((parseCompositeNode previous 0 siblings).flatMap SemanticChild.held).length ∧
      (((parseCompositeNode previous 0 siblings).flatMap SemanticChild.held).length =
        (siblings.flatMap Sibling.own).length → AttachedFrom previous siblings) ∧
      (AttachedFrom previous siblings →
        (parseCompositeNode previous 0 siblings).flatMap SemanticChild.held =
          siblings.flatMap Sibling.own) := by
  induction bound generalizing previous siblings with
  | zero => omega
  | succ bound inductionHypothesis =>
  rcases comments_or_node siblings with comments | ⟨run, node, rest, rfl, comments, noComment⟩
  · have same := (parseCompositeNode_end comments previous).trans (flatMap_own comments).symm
    refine ⟨(congrArg List.length same).ge, fun _ front node back split noComment => ?_,
      fun _ => same⟩
    have member : node ∈ siblings := by simp [split]
    simp [comments node member] at noComment
  · have restOrdered : RowsOrdered rest := by
      refine ⟨fun sibling member => ordered.each sibling (by simp [member]), ?_⟩
      exact (List.isChain_append.mp ordered.next).2.1.tail
    have nodeBehind : ∀ last ∈ run.getLast?, last.endRow ≤ node.startRow := fun last isLast =>
      (List.isChain_append.mp ordered.next).2.2 last isLast node rfl
    obtain ⟨extra, held, extra_iff⟩ :=
      parseCompositeNode_run clear comments noComment nodeBehind rest
    have shorter : rest.length < bound := by
      rw [List.length_append, List.length_cons] at short
      omega
    obtain ⟨all, attached, exact_⟩ := inductionHypothesis
      (node :: (run.reverse ++ previous)) shorter (by simp [noComment]) restOrdered
    have own : (run ++ node :: rest).flatMap Sibling.own =
        (commentText run).map .inl ++ .inr node :: rest.flatMap Sibling.own := by
      rw [List.flatMap_append, flatMap_own comments, List.flatMap_cons, Sibling.own, noComment]
      rfl
    rw [held, own, attachedFrom_run_iff previous comments noComment rest]
    simp only [List.length_append, List.length_cons, List.length_map]
    refine ⟨by omega, fun same => ?_, fun ⟨here, later⟩ => ?_⟩
    · have none_ : extra = [] := List.length_eq_zero_iff.mp (by omega)
      exact ⟨extra_iff.mp none_, attached (by omega)⟩
    · rw [extra_iff.mpr here, List.nil_append, exact_ later]

/-- Each comment is owned once exactly when the comments in front of every node begin on the row
of the sibling in front of them, or stand on rows of their own with no blank line in front of the
node. -/
theorem parseCompositeNode_owns_once_iff {siblings : List Sibling}
    (ordered : RowsOrdered siblings) :
    OwnsOnce siblings ↔ ∀ front node back, siblings = front ++ node :: back →
      node.isComment = false → Attached front node := by
  obtain ⟨-, attached, exact_⟩ := parseCompositeNode_held _ []
    (Nat.lt_succ_self _) (by simp) ordered
  have from_iff : AttachedFrom [] siblings ↔ ∀ front node back, siblings = front ++ node :: back →
      node.isComment = false → Attached front node := by
    simp [AttachedFrom]
  rw [← from_iff]
  exact ⟨fun same => attached (congrArg List.length same), exact_⟩

/-- A comment, a blank line and a function. -/
def detachedComment : List Sibling :=
  [⟨true, "// a".toList, 0, 0⟩, ⟨false, "int f() {}".toList, 2, 2⟩]

theorem rowsOrdered_detachedComment : RowsOrdered detachedComment :=
  ⟨by decide, by decide⟩

/-- The two children for a comment in front of a blank line both own it. -/
theorem parseCompositeNode_owns_twice :
    ¬ ∀ siblings, RowsOrdered siblings → OwnsOnce siblings := by
  intro owns
  exact absurd (congrArg List.length (owns detachedComment rowsOrdered_detachedComment))
    (by decide)

/-- Two comments and a function, a comment behind it on its row, and another function. -/
def attachedComments : List Sibling :=
  [⟨true, "// a".toList, 0, 0⟩, ⟨true, "// b".toList, 1, 1⟩, ⟨false, "int f() {}".toList, 2, 3⟩,
    ⟨true, "// c".toList, 3, 3⟩, ⟨false, "int g() {}".toList, 5, 5⟩]

/-- All of them are owned once, and attached. -/
theorem parseCompositeNode_owns_once_iff_at :
    OwnsOnce attachedComments ∧ ∀ front node back, attachedComments = front ++ node :: back →
      node.isComment = false → Attached front node := by
  have owns : OwnsOnce attachedComments := by
    unfold OwnsOnce
    decide
  exact ⟨owns, (parseCompositeNode_owns_once_iff ⟨by decide, by decide⟩).mp owns⟩

end MergeBot
