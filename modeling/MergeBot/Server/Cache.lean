import MergeBot.Handler.Resolution

/-!
# The cache directory of the server

Projects are named by a checksum and merge scenarios by their revisions. The
names give the directories, the manifest file of a project and the running sign
of a scenario. Two scenario directories are the same only for one project and
one scenario name (`msCacheDir_inj`).
-/

namespace MergeBot

/-- A merge scenario, as the manifest records it. -/
structure MergeScenario where
  name : Text
  ours : Text
  theirs : Text
  base : Text
deriving DecidableEq, Repr

/-- A scenario is named by the first six characters of its revisions. -/
def MergeScenario.ofRevisions (ours theirs base : Text) : MergeScenario where
  name := ours.take 6 ++ '-' :: theirs.take 6
  ours := ours
  theirs := theirs
  base := base

/-- A project, as the manifest records it. -/
structure Project where
  project : Text
  path : Text
  cacheDir : Text
  mss : List MergeScenario := []
deriving DecidableEq, Repr

/-! ## Paths -/

/-- A relative name below a directory. -/
def joinPath (dir name : Text) : Text := dir ++ '/' :: name

/-- The part of a path behind its last separator. -/
def filename (path : Text) : Text := (path.reverse.takeWhile fun c => c ≠ '/').reverse

theorem takeWhile_separator {name : Text} (single : '/' ∉ name) (rest : Text) :
    (name ++ '/' :: rest).takeWhile (fun c => c ≠ '/') = name := by
  rw [List.takeWhile_append_of_pos]
  · simp
  · intro c member
    simpa using fun isSeparator : c = '/' => single (isSeparator ▸ member)

@[simp]
theorem filename_joinPath (dir : Text) {name : Text} (single : '/' ∉ name) :
    filename (joinPath dir name) = name := by
  have reversed : (joinPath dir name).reverse = name.reverse ++ '/' :: dir.reverse := by
    simp [joinPath]
  rw [filename, reversed, takeWhile_separator (by simpa using single), List.reverse_reverse]

/-- Where the server keeps its files, and SHA-1 in hexadecimal digits. -/
structure CacheLayout where
  mbDir : Text
  sha1 : Text → Text
  sha1_single : ∀ text, '/' ∉ sha1 text

namespace CacheLayout

variable (layout : CacheLayout)

/-- The name of a project in the cache; a separator behind the path is dropped. -/
def calcProjChecksum (project path : Text) : Text :=
  let pathMut := if path.getLast? = some '/' then path.dropLast else path
  layout.sha1 (project ++ '-' :: pathMut)

def projectCacheDir (checkSum : Text) : Text := joinPath layout.mbDir checkSum

def msCacheDir (checkSum name : Text) : Text := joinPath (layout.projectCacheDir checkSum) name

/-- The manifest file is shared by the projects whose checksums begin alike. -/
def manifestPath (checkSum : Text) : Text :=
  joinPath layout.mbDir ("manifest-".toList ++ checkSum.take 2 ++ ".json".toList)

theorem calcProjChecksum_single (project path : Text) :
    '/' ∉ layout.calcProjChecksum project path :=
  layout.sha1_single _

theorem filename_projectCacheDir (project path : Text) :
    filename (layout.projectCacheDir (layout.calcProjChecksum project path)) =
      layout.calcProjChecksum project path :=
  filename_joinPath _ (layout.calcProjChecksum_single project path)

/-- A scenario directory tells the checksum and the scenario's name. -/
theorem msCacheDir_inj {checkSum other name otherName : Text} (single : '/' ∉ checkSum)
    (otherSingle : '/' ∉ other)
    (same : layout.msCacheDir checkSum name = layout.msCacheDir other otherName) :
    checkSum = other ∧ name = otherName := by
  simp only [msCacheDir, projectCacheDir, joinPath, List.append_assoc, List.cons_append] at same
  have tails : checkSum ++ '/' :: name = other ++ '/' :: otherName :=
    (List.cons.inj (List.append_cancel_left same)).2
  have sums : checkSum = other := by
    have heads := congrArg (List.takeWhile fun c => c ≠ '/') tails
    rwa [takeWhile_separator single, takeWhile_separator otherSingle] at heads
  subst sums
  exact ⟨rfl, (List.cons.inj (List.append_cancel_left tails)).2⟩

end CacheLayout

/-! ## Exceptions and files -/

/-- What the functions of the server throw. -/
inductive ServerException
  /-- `AppBaseException`, with its code and message. -/
  | app (code msg : Text)
  /-- A failing operation of the file system library. -/
  | filesystem
  /-- Any other `std::exception`. -/
  | std
deriving DecidableEq, Repr

/-- The JSON library: a dump of projects is parsed back to them. -/
structure ProjectsCodec where
  Content : Type
  dump : List Project → Content
  parse : Content → List Project
  parse_dump : ∀ projects, parse (dump projects) = projects

/-- The manifest files, and the scenario directories that hold a running sign. -/
structure Disk (codec : ProjectsCodec) where
  manifests : Text → Option codec.Content
  running : Text → Bool

namespace Disk

variable {codec : ProjectsCodec} (disk : Disk codec)

/-- Rewrite a manifest file. -/
def writeManifest (path : Text) (projects : List Project) : Disk codec :=
  { disk with
    manifests := fun other =>
      if other = path then some (codec.dump projects) else disk.manifests other }

/-- Create the running sign of a scenario. -/
def setRunningSign (projDir msName : Text) : Disk codec :=
  { disk with
    running := fun other => if other = joinPath projDir msName then true else disk.running other }

/-- Remove the running sign, if there is one. -/
def removeRunningSign (msPath : Text) : Disk codec :=
  { disk with running := fun other => if other = msPath then false else disk.running other }

@[simp]
theorem writeManifest_running (path : Text) (projects : List Project) :
    (disk.writeManifest path projects).running = disk.running := rfl

theorem writeManifest_manifests (path : Text) (projects : List Project) (other : Text) :
    (disk.writeManifest path projects).manifests other =
      if other = path then some (codec.dump projects) else disk.manifests other := rfl

@[simp]
theorem setRunningSign_manifests (projDir msName : Text) :
    (disk.setRunningSign projDir msName).manifests = disk.manifests := rfl

@[simp]
theorem removeRunningSign_manifests (msPath : Text) :
    (disk.removeRunningSign msPath).manifests = disk.manifests := rfl

theorem removeRunningSign_running (msPath other : Text) :
    (disk.removeRunningSign msPath).running other =
      if other = msPath then false else disk.running other := rfl

end Disk

end MergeBot
