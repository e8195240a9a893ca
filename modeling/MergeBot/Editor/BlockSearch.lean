import MergeBot.Foundation.SortedLists
import MergeBot.Conflict.EditorBlocks
import MergeBot.Editor.Store

/-!
# Finding an opened block again

`findConflictBlocks` makes the fingerprints, and takes the last start marker before a separator.
`findSpecificFingerprint` scans like the server, from the first start marker to the next end
marker, and returns the first text with the hash. `findSpecificFingerprint_iff` says for which
blocks of a file that has just been opened it returns the block itself.
-/

namespace MergeBot

open Foundation

/-! ## The spans of the scan -/

/-- Every block that starts before the line ends before it. -/
def ClosedBefore (lines : List Text) (number : Int) : Prop :=
  ∀ start < number, MarkerAt .ours lines start →
    ∃ stop, start < stop ∧ stop < number ∧ MarkerAt .end_ lines stop

/-- The scan goes from line `start` to line `stop`, counted from one. -/
structure BlockSpan (lines : List Text) (start stop : Int) : Prop where
  ours : MarkerAt .ours lines start
  closed : ClosedBefore lines start
  end_ : MarkerAt .end_ lines stop
  oursFirst : start < stop
  firstEnd : ∀ number, start < number → number < stop → ¬ MarkerAt .end_ lines number

/-- Where the scan is before the line with an index. -/
def Scanned (lines : List Text) (index : Nat) : Option Nat → Prop
  | none => ClosedBefore lines (index + 1)
  | some start =>
      start < index ∧ MarkerAt .ours lines (start + 1) ∧ ClosedBefore lines (start + 1) ∧
        ∀ number, (start : Int) + 1 < number → number < index + 1 → ¬ MarkerAt .end_ lines number

theorem markerAt_iff {mark : ConflictMark} {lines : List Text} {index : Nat} {line : Text}
    (here : lines[index]? = some line) :
    MarkerAt mark lines (index + 1) ↔ mark.Begins line := by
  constructor
  · rintro ⟨other, text, same, there, begins⟩
    obtain rfl : index = other := by omega
    obtain rfl := Option.some.inj (here.symm.trans there)
    exact begins
  · exact fun begins => ⟨index, line, rfl, here, begins⟩

/-- No line has two markers. -/
theorem MarkerAt.unique {first second : ConflictMark} {lines : List Text} {number : Int}
    (atFirst : MarkerAt first lines number) (atSecond : MarkerAt second lines number) :
    first = second := by
  obtain ⟨index, line, rfl, here, begins⟩ := atFirst
  exact begins.unique ((markerAt_iff here).mp atSecond)

section Scan

variable {lines : List Text} {index : Nat} {line : Text}

/-- Before a line that is behind a closed one, and does not start a block. -/
theorem Scanned.outside (scanned : Scanned lines index none) (here : lines[index]? = some line)
    (plain : ¬ ConflictMark.ours.Begins line) : Scanned lines (index + 1) none := by
  intro start before starts
  by_cases same : start = index + 1
  · rw [same, markerAt_iff here] at starts
    exact absurd starts plain
  · obtain ⟨stop, behind, upTo, ends⟩ := scanned start (by omega) starts
    exact ⟨stop, behind, by omega, ends⟩

/-- A block starts. -/
theorem Scanned.start (scanned : Scanned lines index none) (here : lines[index]? = some line)
    (starts : ConflictMark.ours.Begins line) : Scanned lines (index + 1) (some index) :=
  ⟨Nat.lt_succ_self index, (markerAt_iff here).mpr starts, scanned, fun number _ _ => by omega⟩

/-- The line is in the block that is open. -/
theorem Scanned.inside {start : Nat} (scanned : Scanned lines index (some start))
    (here : lines[index]? = some line) (plain : ¬ ConflictMark.end_.Begins line) :
    Scanned lines (index + 1) (some start) := by
  obtain ⟨before, ours, closed, noEnd⟩ := scanned
  refine ⟨by omega, ours, closed, fun number behind upTo => ?_⟩
  by_cases same : number = index + 1
  · rw [same, markerAt_iff here]
    exact plain
  · exact noEnd number behind (by omega)

/-- Behind an end marker line no block is open. -/
theorem scanned_behind_end (here : lines[index]? = some line)
    (ends : ConflictMark.end_.Begins line) :
    Scanned lines (index + 1) none := by
  intro other before starts
  have endHere : MarkerAt .end_ lines (index + 1) := (markerAt_iff here).mpr ends
  have different : other ≠ index + 1 := by
    rintro rfl
    exact absurd (starts.unique endHere) (by decide)
  exact ⟨index + 1, by omega, by omega, endHere⟩

/-- A block that is open ends where the scan says. -/
theorem Scanned.span_iff {start : Nat} (scanned : Scanned lines index (some start))
    (here : lines[index]? = some line) (ends : ConflictMark.end_.Begins line) {other : Nat} :
    BlockSpan lines (other + 1) (index + 1) ↔ other = start := by
  obtain ⟨before, ours, closed, noEnd⟩ := scanned
  constructor
  · intro span
    have upTo := span.oursFirst
    rcases Nat.lt_trichotomy other start with earlier | same | later
    · obtain ⟨stop, behind, inFront, atStop⟩ := closed (other + 1) (by omega) span.ours
      exact absurd atStop (span.firstEnd stop behind (by omega))
    · exact same
    · obtain ⟨stop, behind, inFront, atStop⟩ := span.closed (start + 1) (by omega) ours
      exact absurd atStop (noEnd stop behind (by omega))
  · rintro rfl
    exact ⟨ours, closed, (markerAt_iff here).mpr ends, by omega, noEnd⟩

/-- Without an open block none ends. -/
theorem Scanned.not_span (scanned : Scanned lines index none) (other : Nat) :
    ¬ BlockSpan lines (other + 1) (index + 1) := by
  intro span
  obtain ⟨stop, behind, inFront, atStop⟩ := scanned (other + 1) span.oursFirst span.ours
  exact span.firstEnd stop behind inFront atStop

end Scan

/-- The spans behind an index are those that end behind it. -/
theorem mem_scanSpans_iff {lines rest : List Text} {index : Nat} (behind : lines.drop index = rest)
    {opened : Option Nat} (scanned : Scanned lines index opened) {start stop : Nat} :
    (start, stop) ∈ scanSpans (fun _ => 1) opened index rest ↔
      BlockSpan lines (start + 1) stop ∧ index < stop := by
  induction rest generalizing index opened with
  | nil =>
      have short : lines.length ≤ index := List.drop_eq_nil_iff.mp behind
      simp only [scanSpans, List.not_mem_nil, false_iff, not_and, not_lt]
      intro span
      have inside := span.end_.le_length
      omega
  | cons line rest inductionHypothesis =>
      have here : lines[index]? = some line := by
        rw [← List.head?_drop, behind, List.head?_cons]
      have later : lines.drop (index + 1) = rest := by
        rw [← List.tail_drop, behind, List.tail_cons]
      have splitStop : index < stop ↔ index + 1 < stop ∨ stop = index + 1 := by omega
      have atEnd : BlockSpan lines (start + 1) stop ∧ stop = index + 1 ↔
          BlockSpan lines (start + 1) (index + 1) ∧ stop = index + 1 := by
        constructor
        all_goals
          rintro ⟨span, rfl⟩
          exact ⟨span, rfl⟩
      rw [splitStop, and_or_left, atEnd]
      cases opened with
      | none =>
          have noSpan := scanned.not_span start
          rw [scanSpans]
          split
          · rename_i starts
            rw [inductionHypothesis later (scanned.start here starts)]
            simp [noSpan]
          · rename_i plain
            rw [inductionHypothesis later (scanned.outside here plain)]
            simp [noSpan]
      | some first =>
          rw [scanSpans]
          split
          · rename_i ends
            rw [List.mem_cons, inductionHypothesis later (scanned_behind_end here ends),
              scanned.span_iff here ends, Prod.mk.injEq, or_comm]
          · rename_i plain
            have noEnd : ¬ BlockSpan lines (start + 1) (index + 1) := fun span =>
              plain ((markerAt_iff here).mp span.end_)
            rw [inductionHypothesis later (scanned.inside here plain)]
            simp [noEnd]

/-- The spans follow one another, and begin with the block that is open. -/
theorem scanSpans_increasing (lines : List Text) {index : Nat} {opened : Option Nat}
    (before : ∀ start ∈ opened, start < index) :
    ((scanSpans (fun _ => 1) opened index lines).Pairwise fun first second =>
        first.1 < second.1) ∧
      ∀ span ∈ scanSpans (fun _ => 1) opened index lines, opened.getD index ≤ span.1 := by
  induction lines generalizing index opened with
  | nil => simp [scanSpans]
  | cons line rest inductionHypothesis =>
      cases opened with
      | none =>
          rw [scanSpans]
          split
          · obtain ⟨increasing, lower⟩ := @inductionHypothesis (index + 1) (some index) (by simp)
            exact ⟨increasing, lower⟩
          · obtain ⟨increasing, lower⟩ := @inductionHypothesis (index + 1) none (by simp)
            exact ⟨increasing, fun span member => Nat.le_of_succ_le (lower span member)⟩
      | some start =>
          have inFront : start < index := before start rfl
          rw [scanSpans]
          split
          · obtain ⟨increasing, lower⟩ := @inductionHypothesis (index + 1) none (by simp)
            have behind : ∀ span ∈ scanSpans (fun _ => 1) none (index + 1) rest,
                start < span.1 := fun span member => by
              have atLeast : index + 1 ≤ span.1 := lower span member
              omega
            refine ⟨List.pairwise_cons.mpr ⟨behind, increasing⟩, fun span member => ?_⟩
            rcases List.mem_cons.mp member with rfl | member
            · exact Nat.le_refl _
            · exact Nat.le_of_lt (behind span member)
          · exact inductionHypothesis fun first same => by
              obtain rfl : start = first := by simpa using same
              omega

/-! ## Blocks that are found -/

section Search

variable (sha256 : Text → Text)

/-- The search returns the first span with the hash. -/
theorem findSpecificFingerprintFrom_eq (lines : List Text) (finger : Text) (opened : Option Nat)
    (index : Nat) (rest : List Text) :
    findSpecificFingerprintFrom sha256 lines finger opened index rest =
      ((scanSpans (fun _ => 1) opened index rest).find? fun span =>
        finger = getBlockHash sha256 lines span.1 (span.2 - 1)).map fun span =>
          ⟨span.1, span.2 - 1⟩ := by
  induction rest generalizing opened index with
  | nil => cases opened <;> rfl
  | cons line rest inductionHypothesis =>
      cases opened with
      | none =>
          rw [findSpecificFingerprintFrom, scanSpans, inductionHypothesis, inductionHypothesis]
          split <;> rfl
      | some start =>
          have stop : ((index + 1 : Nat) : Int) - 1 = index := by omega
          rw [findSpecificFingerprintFrom, scanSpans, inductionHypothesis, inductionHypothesis]
          split
          · rw [List.find?_cons, stop]
            split <;> rename_i same <;> simp [same]
          · rfl

end Search

/-- The lines of a span. -/
theorem getArraySlice_inside {lines : List Text} {start stop : Nat} (inOrder : start ≤ stop)
    (inside : stop < lines.length) :
    getArraySlice lines start stop = (lines.take (stop + 1)).drop start := by
  have guards : ¬ ((start : Int) < 0 ∨ (stop : Int) ≥ lines.length ∨ (start : Int) > stop) := by
    omega
  rw [getArraySlice, if_neg guards]
  rfl

/-- Equal spans have equal lines. -/
theorem getElem?_of_slice_eq {lines : List Text} {first second size : Nat}
    (same : (lines.take (first + size + 1)).drop first =
      (lines.take (second + size + 1)).drop second) {offset : Nat} (inside : offset ≤ size) :
    lines[first + offset]? = lines[second + offset]? := by
  have line : ((lines.take (first + size + 1)).drop first)[offset]? =
      ((lines.take (second + size + 1)).drop second)[offset]? := by rw [same]
  rwa [List.getElem?_drop, List.getElem?_drop, List.getElem?_take_of_lt (by omega),
    List.getElem?_take_of_lt (by omega)] at line

/-- In front of the block every block has ended, within it there is no end marker, and no copy of
its lines comes first. -/
structure FoundFirst (lines : List Text) (block : MarkerLineNos) : Prop where
  closed : ClosedBefore lines block.ourMarkerLineNo
  firstEnd : ∀ number, block.ourMarkerLineNo < number → number < block.endMarkerLineNo →
    ¬ MarkerAt .end_ lines number
  firstCopy : ∀ number, 1 ≤ number → number < block.ourMarkerLineNo → ClosedBefore lines number →
    getArraySlice lines (number - 1)
        (number - 1 + (block.endMarkerLineNo - block.ourMarkerLineNo)) ≠
      getArraySlice lines (block.ourMarkerLineNo - 1) (block.endMarkerLineNo - 1)

/-- The spans of all lines. -/
theorem mem_blockSpans_iff {lines : List Text} {start stop : Nat} :
    (start, stop) ∈ scanSpans (fun _ => 1) none 0 lines ↔ BlockSpan lines (start + 1) stop := by
  have nothing : Scanned lines 0 none := fun number before starts => by
    have positive := starts.positive
    omega
  rw [mem_scanSpans_iff List.drop_zero nothing, and_iff_left_iff_imp]
  intro span
  have positive := span.end_.positive
  omega

/-- The search returns an interval when it is the first span with the hash. -/
theorem findSpecificFingerprint_eq_some_iff {sha256 : Text → Text} {lines : List Text}
    {finger : Text} {start last : Nat} :
    findSpecificFingerprint sha256 lines finger = some ⟨start, last⟩ ↔
      ((scanSpans (fun _ => 1) none 0 lines).find? fun span =>
        finger = getBlockHash sha256 lines span.1 (span.2 - 1)) = some (start, last + 1) := by
  rw [findSpecificFingerprint, findSpecificFingerprintFrom_eq, Option.map_eq_some_iff]
  constructor
  · rintro ⟨⟨first, stop⟩, here, same⟩
    have positive := (mem_blockSpans_iff.mp (List.mem_of_find?_eq_some here)).end_.positive
    obtain ⟨rfl, stopEq⟩ := BlockInterval.mk.inj same
    obtain rfl : stop = last + 1 := by omega
    exact here
  · exact fun here => ⟨_, here, rfl⟩

/-- Lines with the same text have the same markers. -/
theorem markerAt_congr {mark : ConflictMark} {lines : List Text} {first second : Nat}
    (same : lines[first]? = lines[second]?) (found : MarkerAt mark lines (first + 1)) :
    MarkerAt mark lines (second + 1) := by
  obtain ⟨index, line, indexEq, here, begins⟩ := found
  obtain rfl : first = index := by omega
  exact (markerAt_iff (same.symm.trans here)).mpr begins

/-- A copy of a span is a span if no block is open in front of it. -/
theorem BlockSpan.copy {lines : List Text} {first second size : Nat}
    (span : BlockSpan lines (second + 1) (second + size + 1))
    (same : (lines.take (first + size + 1)).drop first =
      (lines.take (second + size + 1)).drop second)
    (closed : ClosedBefore lines (first + 1)) :
    BlockSpan lines (first + 1) (first + size + 1) := by
  have nonempty := span.oursFirst
  have start := getElem?_of_slice_eq same (Nat.zero_le size)
  have stop := getElem?_of_slice_eq same (Nat.le_refl size)
  have endMarker : MarkerAt .end_ lines ((second + size : Nat) + 1) := span.end_
  refine ⟨markerAt_congr start.symm span.ours, closed, markerAt_congr stop.symm endMarker, by omega,
    fun number behind before atNumber => ?_⟩
  obtain ⟨offset, rfl⟩ : ∃ offset : Nat, number = first + offset + 1 :=
    ⟨(number - first - 1).toNat, by omega⟩
  have inside : offset ≤ size := by omega
  have line := getElem?_of_slice_eq same inside
  have atFirst : MarkerAt .end_ lines ((first + offset : Nat) + 1) := atNumber
  exact span.firstEnd _ (by omega) (by omega) (markerAt_congr line atFirst)

/-- Spans with the same hash have the same lines. -/
theorem slice_eq_of_hash_eq {sha256 : Text → Text} (injective : Function.Injective sha256)
    {lines : List Text} (single : ∀ line ∈ lines, '\n' ∉ line)
    {first firstStop second secondStop : Nat}
    (firstOrder : first ≤ firstStop) (firstInside : firstStop < lines.length)
    (secondOrder : second ≤ secondStop) (secondInside : secondStop < lines.length)
    (same : getBlockHash sha256 lines first firstStop =
      getBlockHash sha256 lines second secondStop) :
    (lines.take (firstStop + 1)).drop first = (lines.take (secondStop + 1)).drop second := by
  have valid {start stop : Nat} (inOrder : start ≤ stop) (inside : stop < lines.length) :
      EditorLines ((lines.take (stop + 1)).drop start) := by
    refine ⟨?_, fun line member => single line (List.mem_of_mem_take (List.mem_of_mem_drop member))⟩
    rw [Ne, List.drop_eq_nil_iff, List.length_take]
    omega
  rw [getBlockHash, getBlockHash, getArraySlice_inside firstOrder firstInside,
    getArraySlice_inside secondOrder secondInside] at same
  rw [← splitText_joinLines (valid firstOrder firstInside), injective same,
    splitText_joinLines (valid secondOrder secondInside)]

/-- The search for the hash of a block of the lines returns this block if and only if it is
found first. -/
theorem findSpecificFingerprint_block_iff {sha256 : Text → Text}
    (injective : Function.Injective sha256) {lines : List Text}
    (single : ∀ line ∈ lines, '\n' ∉ line) {block : MarkerLineNos}
    (found : block ∈ findConflictBlocks lines) :
    findSpecificFingerprint sha256 lines (getBlockHash sha256 lines (block.ourMarkerLineNo - 1)
        (block.endMarkerLineNo - 1)) =
      some ⟨(block.ourMarkerLineNo - 1).toNat, (block.endMarkerLineNo - 1).toNat⟩ ↔
    FoundFirst lines block := by
  obtain ⟨ours, -, -, end_, oursFirst, -⟩ := mem_findConflictBlocks found
  obtain ⟨start, size, ourEq, endEq⟩ : ∃ start size : Nat,
      block.ourMarkerLineNo = start + 1 ∧ block.endMarkerLineNo = start + size + 1 := by
    have positive := ours.positive
    exact ⟨(block.ourMarkerLineNo - 1).toNat,
      (block.endMarkerLineNo - block.ourMarkerLineNo).toNat, by omega, by omega⟩
  have inside : start + size < lines.length := by
    have upTo := end_.le_length
    omega
  have ourIndex : block.ourMarkerLineNo - 1 = start := by omega
  have endIndex : block.endMarkerLineNo - 1 = (start + size : Nat) := by omega
  have stopIndex (first : Nat) : ((first + size + 1 : Nat) : Int) - 1 = (first + size : Nat) := by
    omega
  have increasing := (@scanSpans_increasing lines 0 none (by simp)).1
  rw [ourIndex, endIndex, Int.toNat_natCast, Int.toNat_natCast,
    findSpecificFingerprint_eq_some_iff, find?_eq_some_iff_of_increasing increasing,
    mem_blockSpans_iff]
  constructor
  · rintro ⟨span, -, first⟩
    refine ⟨?_, ?_, fun number positive before closed same => ?_⟩
    · rw [ourEq]
      exact span.closed
    · rw [ourEq, endEq]
      exact span.firstEnd
    · obtain ⟨other, rfl⟩ : ∃ other : Nat, number = other + 1 := ⟨(number - 1).toNat, by omega⟩
      have otherIndex : (other : Int) + 1 - 1 = other := by omega
      have otherStop : (other : Int) + (block.endMarkerLineNo - block.ourMarkerLineNo) =
          (other + size : Nat) := by omega
      rw [otherIndex, otherStop, ourIndex, endIndex] at same
      have copied := same
      rw [getArraySlice_inside (by omega) (by omega),
        getArraySlice_inside (by omega) inside] at copied
      have copy := mem_blockSpans_iff.mpr (span.copy copied closed)
      refine first _ copy (by simp only; omega) (decide_eq_true ?_)
      rw [stopIndex, getBlockHash, getBlockHash, same]
  · intro first
    refine ⟨⟨?_, ?_, ?_, by omega, ?_⟩, ?_, ?_⟩
    · rwa [← ourEq]
    · rw [← ourEq]
      exact first.closed
    · have endMarker := end_
      rwa [endEq] at endMarker
    · have noEnd := first.firstEnd
      rwa [ourEq, endEq] at noEnd
    · exact decide_eq_true (by rw [stopIndex])
    · rintro ⟨other, stop⟩ member before same
      have span := mem_blockSpans_iff.mp member
      have upTo := span.end_.le_length
      have inOrder := span.oursFirst
      obtain ⟨last, rfl⟩ : ∃ last, stop = last + 1 := ⟨stop - 1, by omega⟩
      have lastIndex : ((last + 1 : Nat) : Int) - 1 = last := by omega
      have hashes := of_decide_eq_true same
      rw [lastIndex] at hashes
      have copied :=
        slice_eq_of_hash_eq injective single (by omega) inside (by omega) (by omega) hashes
      have sizes := congrArg List.length copied
      rw [List.length_drop, List.length_take, List.length_drop, List.length_take] at sizes
      apply first.firstCopy (other + 1) (by omega) (by omega) span.closed
      have otherIndex : (other : Int) + 1 - 1 = other := by omega
      have otherStop : (other : Int) + (block.endMarkerLineNo - block.ourMarkerLineNo) = last := by
        omega
      rw [otherIndex, otherStop, ourIndex, endIndex, getArraySlice_inside (by omega) (by omega),
        getArraySlice_inside (by omega) inside, copied]

/-- Right after a content has been opened, the fingerprint of a block leads to the block itself if
and only if the block is found first. -/
theorem findSpecificFingerprint_iff {sha256 : Text → Text} (injective : Function.Injective sha256)
    (content : Text) (before : EditorStore) {index : Nat} {block : MarkerLineNos}
    (found : (findConflictBlocks (splitText content))[index]? = some block) :
    (before.initResolveEditorContent sha256 content).originalFingerprints[index]?.bind
        (findSpecificFingerprint sha256
          (before.initResolveEditorContent sha256 content).rtModified) =
      some ⟨(block.ourMarkerLineNo - 1).toNat, (block.endMarkerLineNo - 1).toNat⟩ ↔
    FoundFirst (splitText content) block := by
  have fingerprint :
      (before.initResolveEditorContent sha256 content).originalFingerprints[index]? =
        some (getBlockHash sha256 (splitText content) (block.ourMarkerLineNo - 1)
          (block.endMarkerLineNo - 1)) := by
    simp [EditorStore.initResolveEditorContent, found]
  have lines : (before.initResolveEditorContent sha256 content).rtModified = splitText content :=
    rfl
  rw [fingerprint, Option.bind_some, lines]
  exact findSpecificFingerprint_block_iff injective (editorLines_splitText content).single
    (List.mem_of_getElem? found)

/-- Two equal blocks. -/
def repeatedContent : Text :=
  "<<<<<<<\na\n=======\nb\n>>>>>>>\n<<<<<<<\na\n=======\nb\n>>>>>>>".toList

/-- The first one of two equal blocks. -/
theorem findSpecificFingerprint_firstBlock :
    Function.Injective (id : Text → Text) ∧
      (findConflictBlocks (splitText repeatedContent))[0]? = some ⟨1, -1, 3, 5⟩ ∧
      ((EditorStore.initResolveEditorContent id repeatedContent {}).originalFingerprints[0]?.bind
          (findSpecificFingerprint id
            (EditorStore.initResolveEditorContent id repeatedContent {}).rtModified) =
        some ⟨0, 4⟩ ↔ FoundFirst (splitText repeatedContent) ⟨1, -1, 3, 5⟩) := by
  have found : (findConflictBlocks (splitText repeatedContent))[0]? = some ⟨1, -1, 3, 5⟩ := by
    decide
  exact ⟨Function.injective_id, found,
    findSpecificFingerprint_iff Function.injective_id repeatedContent {} found⟩

/-- The fingerprint of the second one leads to the first one. -/
theorem secondBlock_mistaken :
    Function.Injective (id : Text → Text) ∧
      (findConflictBlocks (splitText repeatedContent))[1]? = some ⟨6, -1, 8, 10⟩ ∧
      ¬ (EditorStore.initResolveEditorContent id repeatedContent {}).originalFingerprints[1]?.bind
          (findSpecificFingerprint id
            (EditorStore.initResolveEditorContent id repeatedContent {}).rtModified) =
        some ⟨5, 9⟩ := by
  refine ⟨Function.injective_id, by decide, ?_⟩
  have first :
      (EditorStore.initResolveEditorContent id repeatedContent {}).originalFingerprints[1]?.bind
          (findSpecificFingerprint id
            (EditorStore.initResolveEditorContent id repeatedContent {}).rtModified) =
        some ⟨0, 4⟩ := by decide
  rw [first]
  decide

end MergeBot
