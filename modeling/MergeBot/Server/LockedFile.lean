import Mathlib.Data.List.Basic
import Mathlib.Tactic.IntervalCases
import MergeBot.Conflict.Scanner
import MergeBot.Foundation.Runs

/-!
# Files read and written under advisory locks

One writer overwrites a file while readers read it to the end. The writer opens
the file, which truncates it, before it has the lock. `completeReads_of_undisturbed`
says under which condition on the steps every reader obtains the whole old or the
whole new content, and `incomplete_of_disturbed` that opening and locking in any
other order lets a reader obtain something else.
-/

namespace MergeBot

open Foundation

/-- The processes of the writer and of the readers, however many there are. -/
structure Openers where
  count : Nat
  writer : Nat
  reader : Fin count → Nat

/-- How far `file_overwrite_content_sync` has come. -/
inductive WriterPhase
  | waiting
  /-- In `lockWRFD`: the file is open, and `rwMutex` is held until the lock is there. -/
  | opened
  | locked
  | written
  | done
deriving DecidableEq, Repr

/-- How far a reader has come. -/
inductive ReaderPhase
  | waiting
  /-- In `lockRDFD`: the file is open, and `rwMutex` is shared until the lock is there. -/
  | opened
  /-- With the lock, and what has been read. -/
  | reading (content : Text)
  /-- With the lock, at the end of the file. -/
  | atEnd (content : Text)
  | done (content : Text)
deriving DecidableEq, Repr

/-- The writer has the lock. -/
def WriterPhase.Locks : WriterPhase → Bool
  | .locked | .written => true
  | _ => false

/-- The reader has the lock. -/
def ReaderPhase.Locks : ReaderPhase → Bool
  | .reading _ | .atEnd _ => true
  | _ => false

/-- What the reader has obtained, once it has seen the end of the file. -/
def ReaderPhase.obtained? : ReaderPhase → Option Text
  | .atEnd content | .done content => some content
  | _ => none

/-- The file and its openers. -/
structure LockedFile (openers : Openers) where
  content : Text
  writer : WriterPhase
  reader : Fin openers.count → ReaderPhase

/-- The steps of the openers. A `write` may write less than it is given, and a
`read` return less than is there, but at least one character. -/
inductive FileStep (openers : Openers)
  | writerOpen
  | writerLock
  | write (count : Nat)
  | writerUnlock
  | readerOpen (index : Fin openers.count)
  | readerLock (index : Fin openers.count)
  | read (index : Fin openers.count) (more : Nat)
  | readerUnlock (index : Fin openers.count)
deriving DecidableEq, Repr

namespace LockedFile

variable {openers : Openers} (file : LockedFile openers)

/-- No reader of the process is in `lockRDFD`. -/
def NoReaderOpens (process : Nat) : Prop :=
  ∀ index, openers.reader index = process → file.reader index ≠ .opened

/-- The writer is not in `lockWRFD`, or is in another process. -/
def WriterElsewhere (process : Nat) : Prop :=
  openers.writer = process → file.writer ≠ .opened

instance (process : Nat) : Decidable (file.NoReaderOpens process) :=
  inferInstanceAs (Decidable (∀ _, _))

instance (process : Nat) : Decidable (file.WriterElsewhere process) :=
  inferInstanceAs (Decidable (_ → _))

/-- Move one reader on. -/
def setReader (index : Fin openers.count) (phase : ReaderPhase) : LockedFile openers :=
  { file with reader := fun other => if other = index then phase else file.reader other }

/-- A step of the openers, with the content that is written. -/
def move (new : Text) (file : LockedFile openers) :
    FileStep openers → Option (LockedFile openers)
  | .writerOpen =>
      -- O_TRUNC empties the file before the lock is asked for
      if file.writer = .waiting ∧ file.NoReaderOpens openers.writer then
        some { file with content := [], writer := .opened }
      else none
  | .writerLock =>
      if file.writer = .opened ∧ ∀ index, (file.reader index).Locks = false then
        some { file with writer := .locked }
      else none
  | .write count =>
      if file.writer = .locked then
        some { file with content := new.take count, writer := .written }
      else none
  | .writerUnlock =>
      if file.writer = .written ∧ file.NoReaderOpens openers.writer then
        some { file with writer := .done }
      else none
  | .readerOpen index =>
      if file.reader index = .waiting ∧ file.WriterElsewhere (openers.reader index) then
        some (file.setReader index .opened)
      else none
  | .readerLock index =>
      if file.reader index = .opened ∧ file.writer.Locks = false then
        some (file.setReader index (.reading []))
      else none
  | .read index more =>
      match file.reader index with
      | .reading content =>
          match (file.content.drop content.length).take (more + 1) with
          | [] => some (file.setReader index (.atEnd content))
          | chunk => some (file.setReader index (.reading (content ++ chunk)))
      | _ => none
  | .readerUnlock index =>
      match file.reader index with
      | .atEnd content =>
          if file.NoReaderOpens (openers.reader index) ∧
              file.WriterElsewhere (openers.reader index) then
            some (file.setReader index (.done content))
          else none
      | _ => none

/-- The file with a complete content, before anyone opens it. -/
def start (openers : Openers) (old : Text) : LockedFile openers where
  content := old
  writer := .waiting
  reader _ := .waiting

/-- Every reader that has come to the end has obtained the whole old or new content. -/
def CompleteReads (old new : Text) : Prop :=
  ∀ index content, (file.reader index).obtained? = some content → content = old ∨ content = new

end LockedFile

/-- The condition on the steps. When the writer opens the file, the readers with
the lock have read all of the old content (or exactly as much as the new one); no
reader gets the lock between the writer's opening and its lock, unless one of the
contents is empty; and the new content is written whole. -/
def Undisturbed {openers : Openers} (old new : Text) (file : LockedFile openers) :
    FileStep openers → Prop
  | .writerOpen => ∀ index content, file.reader index = .reading content →
      content = old ∨ content = new
  | .readerLock _ => file.writer = .opened → old = [] ∨ new = []
  | .write count => new.length ≤ count
  | _ => True

namespace LockedFile

/-! ## The invariant -/

/-- The content of the file while the writer goes on. -/
def contentAt (old new : Text) : WriterPhase → Text
  | .waiting => old
  | .opened | .locked => []
  | .written | .done => new

/-- What a reader with the lock may have read. From the writer's opening on it
reads no more, and while the writer has the lock there is no such reader. -/
def MayHold (old new : Text) : WriterPhase → Text → Prop
  | .waiting, content => content <+: old
  | .opened, content => content = old ∨ content = new
  | .locked, _ | .written, _ => False
  | .done, content => content <+: new

/-- The content is that of the writer's phase, and the readers are on the way to
a whole content. -/
structure Coherent {openers : Openers} (old new : Text) (file : LockedFile openers) : Prop where
  content : file.content = contentAt old new file.writer
  reading : ∀ index content, file.reader index = .reading content →
    MayHold old new file.writer content
  complete : file.CompleteReads old new

variable {openers : Openers} {old new : Text} {file next : LockedFile openers}
  {index : Fin openers.count}

@[simp]
theorem setReader_content (phase : ReaderPhase) :
    (file.setReader index phase).content = file.content := rfl

@[simp]
theorem setReader_writer (phase : ReaderPhase) :
    (file.setReader index phase).writer = file.writer := rfl

/-- A reader may move on to a phase that fits. -/
theorem Coherent.setReader (coherent : file.Coherent old new) {phase : ReaderPhase}
    (reading : ∀ content, phase = .reading content → MayHold old new file.writer content)
    (complete : ∀ content, phase.obtained? = some content → content = old ∨ content = new) :
    (file.setReader index phase).Coherent old new where
  content := coherent.content
  reading := by
    intro other content isReading
    simp only [LockedFile.setReader] at isReading
    split at isReading
    · exact reading content isReading
    · exact coherent.reading other content isReading
  complete := by
    intro other content obtained
    simp only [LockedFile.setReader] at obtained
    split at obtained
    · exact complete content obtained
    · exact coherent.complete other content obtained

/-- The writer may move on when the readers with the lock fit. -/
theorem Coherent.setWriter (coherent : file.Coherent old new) {content : Text}
    {writer : WriterPhase} (isContent : content = contentAt old new writer)
    (reading : ∀ index content, file.reader index = .reading content →
      MayHold old new writer content) :
    ({ file with content := content, writer := writer } : LockedFile openers).Coherent old new where
  content := isContent
  reading := reading
  complete := coherent.complete

/-- Reading on within a content. -/
theorem chunk_prefix {content whole : Text} (held : content <+: whole) (more : Nat) :
    content ++ (whole.drop content.length).take more <+: whole := by
  obtain ⟨rest, rfl⟩ := held
  rw [List.drop_left]
  exact (List.prefix_append_right_inj content).mpr (List.take_prefix more rest)

/-- The end is reached when everything has been read. -/
theorem atEnd_whole {content whole : Text} {more : Nat} (held : content <+: whole)
    (ended : (whole.drop content.length).take (more + 1) = []) : content = whole := by
  obtain ⟨rest, rfl⟩ := held
  rw [List.drop_left] at ended
  cases rest with
  | nil => exact (List.append_nil content).symm
  | cons head rest => simp at ended

/-- At the end of the file a reader has a whole content. -/
theorem MayHold.atEnd {content : Text} {more : Nat} {writer : WriterPhase}
    (held : MayHold old new writer content)
    (ended : ((contentAt old new writer).drop content.length).take (more + 1) = []) :
    content = old ∨ content = new := by
  cases writer with
  | waiting => exact .inl (atEnd_whole held ended)
  | opened => exact held
  | locked => exact held.elim
  | written => exact held.elim
  | done => exact .inr (atEnd_whole held ended)

/-- Before the end a reader has some more of the content. -/
theorem MayHold.more {content : Text} {more : Nat} {writer : WriterPhase}
    (held : MayHold old new writer content)
    (some_ : ((contentAt old new writer).drop content.length).take (more + 1) ≠ []) :
    MayHold old new writer
      (content ++ ((contentAt old new writer).drop content.length).take (more + 1)) := by
  cases writer with
  | waiting => exact chunk_prefix held _
  | opened => simp [contentAt] at some_
  | locked => exact held.elim
  | written => exact held.elim
  | done => exact chunk_prefix held _

/-- An undisturbed step keeps the file coherent. -/
theorem Coherent.move {step : FileStep openers} (coherent : file.Coherent old new)
    (undisturbed : Undisturbed old new file step) (moved : file.move new step = some next) :
    next.Coherent old new := by
  cases step with
  | writerOpen =>
      obtain ⟨-, rfl⟩ := of_guarded moved
      exact coherent.setWriter rfl undisturbed
  | writerLock =>
      obtain ⟨⟨phase, free⟩, rfl⟩ := of_guarded moved
      have empty : file.content = contentAt old new .locked := by rw [coherent.content, phase]; rfl
      refine coherent.setWriter empty fun index content isReading => ?_
      have locks := free index
      rw [isReading] at locks
      exact Bool.noConfusion locks
  | write count =>
      obtain ⟨phase, rfl⟩ := of_guarded moved
      have whole : new.take count = contentAt old new .written :=
        List.take_of_length_le undisturbed
      refine coherent.setWriter whole fun index content isReading => ?_
      have held := coherent.reading index content isReading
      rw [phase] at held
      exact held
  | writerUnlock =>
      obtain ⟨⟨phase, -⟩, rfl⟩ := of_guarded moved
      have whole : file.content = contentAt old new .done := by rw [coherent.content, phase]; rfl
      refine coherent.setWriter whole fun index content isReading => ?_
      have held := coherent.reading index content isReading
      rw [phase] at held
      exact held.elim
  | readerOpen index =>
      obtain ⟨-, rfl⟩ := of_guarded moved
      exact coherent.setReader nofun nofun
  | readerLock index =>
      obtain ⟨⟨-, free⟩, rfl⟩ := of_guarded moved
      refine coherent.setReader (fun content isReading => ?_) nofun
      obtain rfl := ReaderPhase.reading.inj isReading
      cases phase : file.writer with
      | waiting => exact List.nil_prefix
      | opened =>
          rcases undisturbed phase with rfl | rfl
          · exact .inl rfl
          · exact .inr rfl
      | locked => simp [phase, WriterPhase.Locks] at free
      | written => simp [phase, WriterPhase.Locks] at free
      | done => exact List.nil_prefix
  | read index more =>
      simp only [LockedFile.move] at moved
      split at moved
      · rename_i content isReading
        have held := coherent.reading index content isReading
        rw [coherent.content] at moved
        split at moved
        · rename_i ended
          obtain rfl := Option.some.inj moved
          refine coherent.setReader nofun fun whole obtained => ?_
          obtain rfl : content = whole := Option.some.inj obtained
          exact held.atEnd ended
        · rename_i some_
          obtain rfl := Option.some.inj moved
          refine coherent.setReader (fun longer isLonger => ?_) nofun
          obtain rfl := ReaderPhase.reading.inj isLonger
          exact held.more some_
      · simp at moved
  | readerUnlock index =>
      simp only [LockedFile.move] at moved
      split at moved
      · rename_i content isAtEnd
        obtain ⟨-, rfl⟩ := of_guarded moved
        refine coherent.setReader nofun fun whole obtained => ?_
        obtain rfl : content = whole := Option.some.inj obtained
        exact coherent.complete index content (by rw [isAtEnd]; rfl)
      · simp at moved

theorem start_coherent (openers : Openers) (old new : Text) :
    (start openers old).Coherent old new where
  content := rfl
  reading := nofun
  complete := nofun

end LockedFile

/-- In every run of undisturbed steps, every reader that has come to the end of
the file has obtained the whole old or the whole new content. -/
theorem completeReads_of_undisturbed {openers : Openers} {old new : Text}
    {file : LockedFile openers} {steps : List (FileStep openers)}
    {run : Steps (LockedFile.move new) (.start openers old) steps file}
    (undisturbed : run.Within (Undisturbed old new)) : file.CompleteReads old new :=
  (Steps.invariant_within LockedFile.Coherent.move undisturbed
    (LockedFile.start_coherent openers old new)).complete

/-- Opening or locking in any other order lets a reader obtain something else with
its next read. -/
theorem incomplete_of_disturbed {openers : Openers} {old new : Text}
    {file next : LockedFile openers} {step : FileStep openers} (coherent : file.Coherent old new)
    (moved : file.move new step = some next) (opens : ∀ count, step ≠ .write count)
    (disturbed : ¬ Undisturbed old new file step) :
    ∃ index later, next.move new (.read index 0) = some later ∧ ¬ later.CompleteReads old new := by
  have ends {index : Fin openers.count} {content : Text} (empty : next.content = [])
      (isReading : next.reader index = .reading content) (notOld : content ≠ old)
      (notNew : content ≠ new) :
      ∃ later, next.move new (.read index 0) = some later ∧ ¬ later.CompleteReads old new := by
    refine ⟨next.setReader index (.atEnd content), ?_, fun complete => ?_⟩
    · simp [LockedFile.move, isReading, empty]
    · have obtained : ((next.setReader index (.atEnd content)).reader index).obtained? =
          some content := by simp [LockedFile.setReader, ReaderPhase.obtained?]
      rcases complete index content obtained with isOld | isNew
      · exact notOld isOld
      · exact notNew isNew
  cases step with
  | writerOpen =>
      obtain ⟨-, rfl⟩ := of_guarded moved
      simp only [Undisturbed] at disturbed
      push Not at disturbed
      obtain ⟨index, content, isReading, notOld, notNew⟩ := disturbed
      exact ⟨index, ends rfl isReading notOld notNew⟩
  | readerLock index =>
      obtain ⟨-, rfl⟩ := of_guarded moved
      simp only [Undisturbed] at disturbed
      push Not at disturbed
      obtain ⟨phase, notOld, notNew⟩ := disturbed
      have empty : file.content = [] := by
        rw [coherent.content, phase]
        rfl
      exact ⟨index, ends empty (if_pos rfl) notOld.symm notNew.symm⟩
  | write count => exact absurd rfl (opens count)
  | writerLock | writerUnlock | readerOpen | read | readerUnlock =>
      exact absurd trivial disturbed

/-- The writer in one process and a reader in another. -/
def twoProcesses : Openers where
  count := 1
  writer := 0
  reader _ := 1

/-- The reader in the other process. -/
def onlyReader : Fin twoProcesses.count := ⟨0, Nat.one_pos⟩

/-- A reader has its lock, and the writer opens the file before it reads. -/
def emptiedSteps : List (FileStep twoProcesses) :=
  [.readerOpen onlyReader, .readerLock onlyReader, .writerOpen, .read onlyReader 0,
    .readerUnlock onlyReader]

/-- The reader obtains nothing, which is neither content. -/
theorem twoProcesses_empty : ∃ file,
    Steps (LockedFile.move "c".toList) (.start twoProcesses "ab".toList) emptiedSteps file ∧
      ¬ file.CompleteReads "ab".toList "c".toList := by
  have run : Steps (LockedFile.move "c".toList) (.start twoProcesses "ab".toList)
      emptiedSteps _ := .of_replay rfl
  refine ⟨_, run, fun complete => ?_⟩
  exact absurd (complete onlyReader [] rfl) (by decide)

/-- The writer and two readers, each in a process of its own. -/
def threeProcesses : Openers where
  count := 2
  writer := 0
  reader index := index + 1

def firstReader : Fin threeProcesses.count := ⟨0, Nat.two_pos⟩

def secondReader : Fin threeProcesses.count := ⟨1, Nat.one_lt_two⟩

/-- The writer opens the file when the first reader has read everything. The second reader opens it
meanwhile, and gets its lock when the new content is there. -/
def writerBetween : List (FileStep threeProcesses) :=
  [.readerOpen firstReader, .readerLock firstReader, .read firstReader 0, .read firstReader 3,
    .writerOpen, .readerOpen secondReader, .read firstReader 0, .readerUnlock firstReader,
    .writerLock, .write 1, .writerUnlock, .readerLock secondReader, .read secondReader 0,
    .read secondReader 0, .readerUnlock secondReader]

/-- The first reader obtains the old content, and the second one the new content. -/
theorem threeProcesses_complete : ∃ file,
    Steps (LockedFile.move "c".toList) (.start threeProcesses "ab".toList) writerBetween
        file ∧
      (file.reader firstReader).obtained? = some "ab".toList ∧
        (file.reader secondReader).obtained? = some "c".toList ∧
          file.CompleteReads "ab".toList "c".toList := by
  have run : Steps (LockedFile.move "c".toList) (.start threeProcesses "ab".toList)
      writerBetween _ := .of_replay rfl
  have undisturbed : run.Within (Undisturbed "ab".toList "c".toList) := by
    refine .of_take run fun place inside file replayed => ?_
    have short : place < 15 := inside
    interval_cases place <;> obtain rfl := Option.some.inj replayed
    -- the writer opens the file when the first reader has it all and the second one waits; the
    -- readers' locks come when it is not open for writing; the write is whole
    all_goals first
      | exact Fin.forall_fin_two.mpr
          ⟨fun content same => .inl (ReaderPhase.reading.inj same).symm, nofun⟩
      | exact fun opened => absurd opened (by decide)
      | exact Nat.le_refl 1
      | trivial
  exact ⟨_, run, rfl, rfl, completeReads_of_undisturbed undisturbed⟩

end MergeBot
