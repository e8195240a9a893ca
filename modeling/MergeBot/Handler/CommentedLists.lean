import Mathlib.Data.List.DropRight
import MergeBot.Handler.Inclusion
import MergeBot.Handler.ListMerge
import MergeBot.Handler.PathNames

/-!
# Comments in a list merge

`doListMerge` merges the definitions or declarations of two sides, each with a comment from
in front of it. Of a run of comments only one is kept: in a header the nearest one to the
declaration, in a source file the one that is farthest away, as each step of the walk back
drops what the step before has put together. `doListMerge_keeps_comments`: no comment is
lost when every one of them is found in what is kept.
-/

namespace MergeBot

open Foundation

/-! ## Parsing a side -/

/-- The children of the root, each with the siblings in front of it, the nearest one first. -/
def withPrevious : List SyntaxNode → List SyntaxNode → List (List SyntaxNode × SyntaxNode)
  | _, [] => []
  | previous, node :: rest => (previous, node) :: withPrevious (node :: previous) rest

/-- The texts of the named children that are no comments; `none` when one of them is not
accepted, as the caller then drops the list. -/
def parseListed (accepts : SyntaxNode → Bool)
    (commented : SyntaxNode → List SyntaxNode → String) (nodes : List SyntaxNode) :
    Option (List String) :=
  let children := (withPrevious [] nodes).filter fun child => child.2.isNamed
  if children.all fun child => child.2.isComment || accepts child.2 then
    some ((children.filter fun child => !child.2.isComment).map fun child =>
      commented child.2 child.1)
  else none

/-- A declaration behind the comment that is its previous sibling. -/
def commentedDeclaration (node : SyntaxNode) : List SyntaxNode → String
  | [] => node.text
  | previous :: _ =>
      if previous.isComment then previous.text ++ "\n" ++ node.text else node.text

def parseDeclarations (parse : Parse) (code : Text) : Option (List String) :=
  if code.isEmpty then none
  else parseListed (fun node => node.symbolHas "declaration") commentedDeclaration (parse code)

/-- The walk back over the comments in front of a definition. -/
def commentedDefinition (node : SyntaxNode) : String → List SyntaxNode → String
  | definition, [] => definition
  | definition, previous :: rest =>
      -- the definition is put together anew, without the comments that have been passed
      if previous.isComment then
        commentedDefinition node (previous.text ++ "\n" ++ node.text) rest
      else definition

def parseDefinitions (parse : Parse) (code : Text) : Option (List String) :=
  if code.isEmpty then none
  else
    (parseListed (fun node => node.symbolHas "definition" || node.symbolHas "declaration")
        (fun node => commentedDefinition node node.text) (parse code)).filter fun _ =>
      (parse code).any fun node =>
        node.isNamed && !node.isComment && node.symbolHas "definition"

def parseInclusions (parse : Parse) (code : Text) : Option (List String) :=
  if code.isEmpty then none
  else
    let children := (parse code).filter SyntaxNode.isNamed
    if children.all fun node => node.symbolName = "preproc_include" then
      some (children.map SyntaxNode.text)
    else none

/-! ## Merging the sides -/

/-- Both sides merged, if they can be parsed and merged. -/
def mergeParsed (order : IterationOrder) (ours theirs : Option (List String)) :
    Option (Option (List String)) :=
  match ours, theirs with
  | some ours, some theirs =>
      (mergeVectors order ours theirs []).map fun
        | (true, merged) => some merged
        | (false, _) => none
  | _, _ => some none

/-- The answer of the handler for a merged list. -/
def BlockResolutionResult.acceptList (brr : BlockResolutionResult) (merged : Option (List String))
    (separator : Text) (desc : String) (confidence : Float) : Bool × BlockResolutionResult :=
  match merged with
  | some merged =>
      (true, brr.accept (stringJoin (merged.map String.toList) separator) desc confidence)
  | none => (false, brr)

/-- Whether the sides are lists that can be merged, and the result; `none` means that the fuel
of the graph search ran out. -/
def doListMerge (order : IterationOrder) (parse : Parse) (our their filename : Text)
    (brr : BlockResolutionResult) : Option (Bool × BlockResolutionResult) := do
  let inclusions ← mergeParsed order (parseInclusions parse our) (parseInclusions parse their)
  if inclusions.isSome then return brr.acceptList inclusions [] "Headers merge." 0.7
  else if TextBasedHandler.isCppHeader filename then
    let decls ← mergeParsed order (parseDeclarations parse our) (parseDeclarations parse their)
    return brr.acceptList decls ['\n'] "Declarations merge." 0.5
  else if TextBasedHandler.isCppSource filename then
    let definitions ←
      mergeParsed order (parseDefinitions parse our) (parseDefinitions parse their)
    return brr.acceptList definitions ['\n'] "List merge." 0.4
  else return (false, brr)

/-! ## Comments in front of definitions -/

/-- A definition or a declaration. -/
def SyntaxNode.isListed (node : SyntaxNode) : Bool :=
  node.isNamed && (node.symbolHas "definition" || node.symbolHas "declaration")

/-- A comment of a side that precedes a definition or declaration. -/
def InFront (nodes : List SyntaxNode) (comment : SyntaxNode) : Prop :=
  ∃ front between node back, nodes = front ++ comment :: between ++ node :: back ∧
    comment.isComment = true ∧ node.isListed = true

/-- The comment that the siblings in front of a node end with. -/
def nearestComment (front : List SyntaxNode) : Option SyntaxNode :=
  (front.rtakeWhile SyntaxNode.isComment).getLast?

/-- The first comment of the run that the siblings in front of a node end with. -/
def farthestComment (front : List SyntaxNode) : Option SyntaxNode :=
  (front.rtakeWhile SyntaxNode.isComment).head?

/-- The comment that is kept in front of a node. -/
def keptComment (filename : Text) : List SyntaxNode → Option SyntaxNode :=
  if TextBasedHandler.isCppHeader filename then nearestComment else farthestComment

/-- A node behind the comment that is kept. -/
def SyntaxNode.behind (node : SyntaxNode) : Option SyntaxNode → String
  | none => node.text
  | some comment => comment.text ++ "\n" ++ node.text

/-- A definition or declaration of one of the sides, behind the comment that is kept. -/
def KeptEntry (parse : Parse) (our their filename : Text) (entry : String) : Prop :=
  ∃ side ∈ [our, their], ∃ front node back, parse side = front ++ node :: back ∧
    node.isListed = true ∧ entry = node.behind (keptComment filename front)

/-! ## What is kept of a side -/

/-- The entries of a list are the definitions and declarations, each with its comment. -/
def Entries (kept : List SyntaxNode → Option SyntaxNode) (nodes : List SyntaxNode)
    (entries : List String) : Prop :=
  ∀ entry, entry ∈ entries ↔ ∃ front node back, nodes = front ++ node :: back ∧
    node.isListed = true ∧ entry = node.behind (kept front)

theorem mem_withPrevious (passed nodes previous : List SyntaxNode) (node : SyntaxNode) :
    (previous, node) ∈ withPrevious passed nodes ↔
      ∃ front back, nodes = front ++ node :: back ∧ previous = front.reverse ++ passed := by
  induction nodes generalizing passed with
  | nil => simp [withPrevious]
  | cons first rest inductionHypothesis =>
      rw [withPrevious, List.mem_cons, inductionHypothesis]
      constructor
      · rintro (here | ⟨front, back, rfl, rfl⟩)
        · obtain ⟨rfl, rfl⟩ := Prod.mk.inj here
          exact ⟨[], rest, rfl, rfl⟩
        · exact ⟨first :: front, back, rfl, by simp⟩
      · rintro ⟨front, back, split, rfl⟩
        cases front with
        | nil =>
            obtain ⟨rfl, -⟩ := List.cons.inj split
            exact .inl rfl
        | cons other front =>
            obtain ⟨rfl, rest_eq⟩ := List.cons.inj split
            exact .inr ⟨front, back, rest_eq, by simp⟩

/-- No comment is a definition or a declaration. -/
theorem SyntaxNode.not_isComment_of_isListed {node : SyntaxNode} (listed : node.isListed = true) :
    node.isComment = false := by
  by_contra comment
  have name : node.symbolName = "comment" := by simpa [isComment] using comment
  simp only [isListed, symbolHas, name, Bool.and_eq_true] at listed
  exact absurd listed.2 (by decide)

/-- A parser whose list is accepted lists the definitions and declarations. -/
theorem parseListed_entries {accepts : SyntaxNode → Bool}
    {commented : SyntaxNode → List SyntaxNode → String} {nodes : List SyntaxNode}
    {entries : List String} {kept : List SyntaxNode → Option SyntaxNode}
    (some_ : parseListed accepts commented nodes = some entries)
    (listed : ∀ node, accepts node = true →
      (node.symbolHas "definition" || node.symbolHas "declaration") = true)
    (commented_eq : ∀ node front, commented node front.reverse = node.behind (kept front)) :
    Entries kept nodes entries := by
  simp only [parseListed] at some_
  split at some_
  · rename_i accepted
    obtain rfl := Option.some.inj some_
    simp only [List.all_eq_true, List.mem_filter, Prod.forall, mem_withPrevious] at accepted
    intro entry
    simp only [List.mem_map, List.mem_filter, Prod.exists, mem_withPrevious, List.append_nil]
    constructor
    · rintro ⟨_, node, ⟨⟨⟨front, back, split, rfl⟩, named⟩, noComment⟩, rfl⟩
      have isListed := accepted _ node ⟨⟨front, back, split, (List.append_nil _).symm⟩, named⟩
      rw [Bool.not_eq_true'] at noComment
      rw [noComment, Bool.false_or] at isListed
      refine ⟨front, node, back, split, ?_, commented_eq node front⟩
      rw [SyntaxNode.isListed, named, listed node isListed, Bool.and_self]
    · rintro ⟨front, node, back, split, isListed, rfl⟩
      refine ⟨_, node, ⟨⟨⟨front, back, split, rfl⟩, ?_⟩, ?_⟩, commented_eq node front⟩
      · exact (Bool.and_eq_true _ _ ▸ isListed).1
      · rw [SyntaxNode.not_isComment_of_isListed isListed]
        rfl
  · simp at some_

/-- Of the comments in front of a declaration the nearest one is kept. -/
theorem commentedDeclaration_eq (node : SyntaxNode) (front : List SyntaxNode) :
    commentedDeclaration node front.reverse = node.behind (nearestComment front) := by
  induction front using List.reverseRecOn with
  | nil => rfl
  | append_singleton front last inductionHypothesis =>
      rw [List.reverse_append, List.reverse_singleton, List.singleton_append,
        commentedDeclaration, nearestComment, List.rtakeWhile_concat]
      cases last.isComment <;> simp [SyntaxNode.behind]

/-- Of the comments in front of a definition the farthest one is kept. -/
theorem commentedDefinition_eq (node : SyntaxNode) (front : List SyntaxNode) :
    commentedDefinition node node.text front.reverse = node.behind (farthestComment front) := by
  have walk (definition : String) : commentedDefinition node definition front.reverse =
      match farthestComment front with
      | none => definition
      | some comment => comment.text ++ "\n" ++ node.text := by
    induction front using List.reverseRecOn generalizing definition with
    | nil => rfl
    | append_singleton front last inductionHypothesis =>
        rw [List.reverse_append, List.reverse_singleton, List.singleton_append,
          commentedDefinition, inductionHypothesis, farthestComment, farthestComment,
          List.rtakeWhile_concat]
        cases last.isComment with
        | false => simp
        | true => cases front.rtakeWhile SyntaxNode.isComment <;> simp
  rw [walk]
  cases farthestComment front <;> rfl

theorem parseDeclarations_entries {parse : Parse} {code : Text} {entries : List String}
    (some_ : parseDeclarations parse code = some entries) :
    Entries nearestComment (parse code) entries := by
  rw [parseDeclarations] at some_
  split at some_
  · simp at some_
  · exact parseListed_entries some_ (fun node accepted => by simp [accepted])
      commentedDeclaration_eq

theorem parseDefinitions_entries {parse : Parse} {code : Text} {entries : List String}
    (some_ : parseDefinitions parse code = some entries) :
    Entries farthestComment (parse code) entries := by
  rw [parseDefinitions] at some_
  split at some_
  · simp at some_
  · exact parseListed_entries (Option.filter_eq_some_iff.mp some_).1
      (fun node accepted => accepted) commentedDefinition_eq

/-- A side of inclusions only has no definition or declaration. -/
theorem parseInclusions_not_listed {parse : Parse} {code : Text} {entries : List String}
    (some_ : parseInclusions parse code = some entries) :
    ∀ node ∈ parse code, node.isListed = false := by
  rw [parseInclusions] at some_
  split at some_
  · simp at some_
  · simp only at some_
    split at some_
    · rename_i inclusions
      intro node member
      by_contra listed
      rw [Bool.not_eq_false] at listed
      have named : node.isNamed = true := (Bool.and_eq_true _ _ ▸ listed).1
      have name : node.symbolName = "preproc_include" := by
        simpa using List.all_eq_true.mp inclusions node (List.mem_filter.mpr ⟨member, named⟩)
      simp only [SyntaxNode.isListed, SyntaxNode.symbolHas, name, Bool.and_eq_true] at listed
      exact absurd listed.2 (by decide)
    · simp at some_

/-! ## What is kept of both sides -/

/-- Lists that are merged have all their entries in the result. -/
theorem mergeParsed_spec {order : IterationOrder} {ours theirs : Option (List String)}
    {merged : List String} (accepts : mergeParsed order ours theirs = some (some merged)) :
    ∃ our their, ours = some our ∧ theirs = some their ∧
      ∀ entry, entry ∈ merged ↔ entry ∈ our ∨ entry ∈ their := by
  cases ours with
  | none => simp [mergeParsed] at accepts
  | some our =>
  cases theirs with
  | none => simp [mergeParsed] at accepts
  | some their =>
      refine ⟨our, their, rfl, rfl, ?_⟩
      obtain ⟨success, result, run, -, sound, -⟩ := mergeVectors_spec order our their []
      simp only [mergeParsed, run, Option.map_some, Option.some.injEq] at accepts
      cases success with
      | false => simp at accepts
      | true =>
          obtain rfl : result = merged := by simpa using accepts
          exact (sound rfl).2.1

/-- Joined lines, with the line break that is cut off. -/
theorem stringJoin_lines {parts : List Text} (nonempty : parts ≠ []) :
    stringJoin parts ['\n'] ++ ['\n'] = unlines '\n' parts := by
  obtain ⟨init, last, rfl⟩ := List.eq_nil_or_concat parts |>.resolve_left nonempty
  have joined : stringJoin (init ++ [last]) ['\n'] = unlines '\n' init ++ last :=
    stringJoin_of_getLast (by simp [unlines])
  rw [List.concat_eq_append, joined, unlines_append, unlines_cons, unlines_nil,
    List.append_assoc]

/-- Every line occurs in the joined lines. -/
theorem infix_stringJoin {parts : List Text} {part : Text} (member : part ∈ parts) :
    part <:+: stringJoin parts ['\n'] := by
  obtain ⟨before, after, rfl⟩ := List.append_of_mem member
  have lines := stringJoin_lines (List.append_ne_nil_of_right_ne_nil before
    (List.cons_ne_nil part after))
  rw [unlines_append, unlines_cons, ← List.append_assoc] at lines
  have front : unlines '\n' before ++ part <+: stringJoin (before ++ part :: after) ['\n'] := by
    refine List.prefix_of_prefix_length_le ⟨_, lines.symm⟩ (List.prefix_append _ ['\n']) ?_
    have lengths := congrArg List.length lines
    simp only [List.length_append, List.length_cons, List.length_nil] at lengths ⊢
    omega
  exact (List.suffix_append _ part).isInfix.trans front.isInfix

/-- The lists of both sides, and what they are merged to. -/
theorem merged_entries {order : IterationOrder} {parse : Parse} {our their : Text}
    {kept : List SyntaxNode → Option SyntaxNode} {parseSide : Text → Option (List String)}
    (parsed : ∀ side entries, parseSide side = some entries → Entries kept (parse side) entries)
    {merged : List String}
    (accepts : mergeParsed order (parseSide our) (parseSide their) = some (some merged)) :
    ∀ entry, entry ∈ merged ↔ ∃ side ∈ [our, their], ∃ front node back,
      parse side = front ++ node :: back ∧ node.isListed = true ∧
        entry = node.behind (kept front) := by
  obtain ⟨ours, theirs, ourList, theirList, union⟩ := mergeParsed_spec accepts
  intro entry
  rw [union, parsed our ours ourList, parsed their theirs theirList]
  simp

/-- Both sides are inclusions, or what is kept of both sides is joined. -/
theorem doListMerge_cases {order : IterationOrder} {parse : Parse} {our their filename : Text}
    {brr result : BlockResolutionResult}
    (accepts : doListMerge order parse our their filename brr = some (true, result)) :
    (∀ side ∈ [our, their], ∀ node ∈ parse side, node.isListed = false) ∨
      ∃ merged : List String, result.code = stringJoin (merged.map String.toList) ['\n'] ∧
        ∀ entry, entry ∈ merged ↔ KeptEntry parse our their filename entry := by
  have list {merged : Option (List String)} {separator : Text} {desc : String} {confidence : Float}
      (accepted : brr.acceptList merged separator desc confidence = (true, result)) :
      ∃ lines, merged = some lines ∧
        result.code = stringJoin (lines.map String.toList) separator := by
    cases merged with
    | none => simp [BlockResolutionResult.acceptList] at accepted
    | some lines =>
        refine ⟨lines, rfl, ?_⟩
        rw [← (Prod.mk.inj accepted).2]
        rfl
  simp only [doListMerge, Option.bind_eq_bind, Option.bind_eq_some_iff] at accepts
  obtain ⟨inclusions, inclusionsMerged, accepts⟩ := accepts
  split at accepts
  · rename_i isSome
    obtain ⟨lines, rfl⟩ := Option.isSome_iff_exists.mp isSome
    obtain ⟨ours, theirs, ourList, theirList, -⟩ := mergeParsed_spec inclusionsMerged
    left
    simp only [List.forall_mem_cons, List.not_mem_nil, false_imp_iff, implies_true, and_true]
    exact ⟨parseInclusions_not_listed ourList, parseInclusions_not_listed theirList⟩
  right
  split at accepts
  · rename_i header
    simp only [Option.bind_eq_some_iff] at accepts
    obtain ⟨decls, declsMerged, accepted⟩ := accepts
    obtain ⟨lines, rfl, code_eq⟩ := list (Option.some.inj accepted)
    refine ⟨lines, code_eq, ?_⟩
    simp only [KeptEntry, keptComment, if_pos header]
    exact merged_entries (fun side entries => parseDeclarations_entries) declsMerged
  · rename_i header
    split at accepts
    · simp only [Option.bind_eq_some_iff] at accepts
      obtain ⟨definitions, definitionsMerged, accepted⟩ := accepts
      obtain ⟨lines, rfl, code_eq⟩ := list (Option.some.inj accepted)
      refine ⟨lines, code_eq, ?_⟩
      simp only [KeptEntry, keptComment, if_neg header]
      exact merged_entries (fun side entries => parseDefinitions_entries) definitionsMerged
    · exact absurd (Prod.mk.inj (Option.some.inj accepts)).1 (by decide)

/-- When a list merge is accepted, every comment in front of a definition or declaration occurs
in the resolution if each of them occurs in what is kept of the sides. A comment that does not
can only occur by accident, as something that is kept ends with its beginning up to a line
break. -/
theorem doListMerge_keeps_comments {order : IterationOrder} {parse : Parse}
    {our their filename : Text} {brr result : BlockResolutionResult}
    (accepts : doListMerge order parse our their filename brr = some (true, result)) :
    ((∀ side ∈ [our, their], ∀ comment, InFront (parse side) comment →
        ∃ entry, KeptEntry parse our their filename entry ∧
          comment.text.toList <:+: entry.toList) →
      ∀ side ∈ [our, their], ∀ comment, InFront (parse side) comment →
        comment.text.toList <:+: result.code) ∧
    ∀ side ∈ [our, their], ∀ comment, InFront (parse side) comment →
      comment.text.toList <:+: result.code →
        ∃ entry, KeptEntry parse our their filename entry ∧
          (comment.text.toList <:+: entry.toList ∨
            ∃ first later, comment.text.toList = first ++ '\n' :: later ∧
              first <:+ entry.toList) := by
  rcases doListMerge_cases accepts with inclusions | ⟨merged, code_eq, entries⟩
  · have none_ : ∀ side ∈ [our, their], ∀ comment, ¬ InFront (parse side) comment := by
      rintro side member comment ⟨front, between, node, back, split, -, listed⟩
      have inSide : node ∈ parse side := by simp [split]
      exact Bool.false_ne_true ((inclusions side member node inSide).symm.trans listed)
    exact ⟨fun _ side member comment inFront => (none_ side member comment inFront).elim,
      fun side member comment inFront => (none_ side member comment inFront).elim⟩
  rw [code_eq]
  refine ⟨fun spared side member comment inFront => ?_,
    fun side member comment inFront occurs => ?_⟩
  · obtain ⟨entry, kept, inside⟩ := spared side member comment inFront
    exact inside.trans (infix_stringJoin (List.mem_map_of_mem ((entries entry).mpr kept)))
  · obtain ⟨front, between, node, back, split, -, listed⟩ := inFront
    have own : KeptEntry parse our their filename
        (node.behind (keptComment filename (front ++ comment :: between))) :=
      ⟨side, member, front ++ comment :: between, node, back, split, listed, rfl⟩
    by_cases empty : comment.text.toList = []
    · exact ⟨_, own, .inl (empty ▸ List.nil_infix)⟩
    · have joined : comment.text.toList <:+: unlines '\n' (merged.map String.toList) := by
        rw [← stringJoin_lines fun nothing => ?_]
        · exact occurs.trans (List.prefix_append _ _).isInfix
        · have isEntry := (entries _).mpr own
          rw [List.map_eq_nil_iff.mp nothing] at isEntry
          exact List.not_mem_nil isEntry
      rcases infix_unlines_cases empty joined with ⟨_, isPart, inside⟩ | ⟨_, isPart, across⟩
      · obtain ⟨entry, inMerged, rfl⟩ := List.mem_map.mp isPart
        exact ⟨entry, (entries entry).mp inMerged, .inl inside⟩
      · obtain ⟨entry, inMerged, rfl⟩ := List.mem_map.mp isPart
        exact ⟨entry, (entries entry).mp inMerged, .inr across⟩

/-- Two functions, one of them behind two comments. -/
def twoComments : Parse := fun code =>
  if code = "// a\n// b\nint f() {}".toList then
    [⟨"comment", "// a", true⟩, ⟨"comment", "// b", true⟩,
      ⟨"function_definition", "int f() {}", true⟩]
  else [⟨"function_definition", "int g() {}", true⟩]

/-- Of the two comments the one next to the function is lost. -/
theorem doListMerge_twoComments :
    ∃ result, doListMerge insertionOrder twoComments "// a\n// b\nint f() {}".toList
        "int g() {}".toList "a.cpp".toList {} = some (true, result) ∧
      result.code = "int g() {}\n// a\nint f() {}".toList := by
  have run : (doListMerge insertionOrder twoComments "// a\n// b\nint f() {}".toList
      "int g() {}".toList "a.cpp".toList {}).map (fun answer => (answer.1, answer.2.code)) =
        some (true, "int g() {}\n// a\nint f() {}".toList) := by decide +kernel
  obtain ⟨⟨success, result⟩, found, same⟩ := Option.map_eq_some_iff.mp run
  obtain ⟨rfl, code_eq⟩ := Prod.mk.inj same
  exact ⟨result, found, code_eq⟩

theorem inFront_twoComments (comment : SyntaxNode)
    (member : comment ∈ [⟨"comment", "// a", true⟩, ⟨"comment", "// b", true⟩]) :
    InFront (twoComments "// a\n// b\nint f() {}".toList) comment := by
  rcases List.mem_pair.mp member with rfl | rfl
  · exact ⟨[], [⟨"comment", "// b", true⟩], _, [], rfl, by decide, by decide⟩
  · exact ⟨[⟨"comment", "// a", true⟩], [], _, [], rfl, by decide, by decide⟩

/-- The comment that is farthest away occurs in what is kept. -/
theorem doListMerge_keeps_comments_at :
    ∃ entry, KeptEntry twoComments "// a\n// b\nint f() {}".toList "int g() {}".toList
        "a.cpp".toList entry ∧
      ("// a".toList <:+: entry.toList ∨
        ∃ first later, "// a".toList = first ++ '\n' :: later ∧ first <:+ entry.toList) := by
  obtain ⟨result, accepts, code_eq⟩ := doListMerge_twoComments
  exact (doListMerge_keeps_comments accepts).2 _ List.mem_cons_self _
    (inFront_twoComments _ List.mem_cons_self) (by rw [code_eq]; decide)

/-- A list merge loses a comment. -/
theorem doListMerge_loses_comment : ¬ ∀ order parse our their filename brr result,
    doListMerge order parse our their filename brr = some (true, result) →
      ∀ side ∈ [our, their], ∀ comment, InFront (parse side) comment →
        comment.text.toList <:+: result.code := by
  intro keeps
  obtain ⟨result, accepts, code_eq⟩ := doListMerge_twoComments
  have kept := keeps _ _ _ _ _ _ _ accepts _ List.mem_cons_self ⟨"comment", "// b", true⟩
    (inFront_twoComments _ (by simp))
  rw [code_eq] at kept
  exact absurd kept (by decide)

end MergeBot
