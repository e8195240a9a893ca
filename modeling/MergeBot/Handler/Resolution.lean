import MergeBot.Conflict.Scanner

/-!
# Resolving conflict files along a chain of handlers

A handler resolves some blocks of each file, appends its results to the file's
resolution file and drops what is resolved from the list that the next handler
receives. `resolveConflictFiles` is the part the style based and the text based
handler share; which blocks are resolved, and how, is a `Resolver`.

The JSON library is a parameter, `JsonCodec`, with the two laws the code relies
on. Writes to the resolutions directory succeed.
-/

namespace MergeBot

/-- The conflict blocks of one file. -/
structure ConflictFile where
  filename : Text
  conflictBlocks : List ConflictBlock
  resolved : Bool := false
deriving DecidableEq, Repr

/-- What a handler says about one resolved block. -/
structure BlockResolutionResult where
  index : Int := -1
  desc : Text := []
  code : Text := []
  confidence : Float := 0.0

/-- What is stored for one file. -/
structure FileResolutionResult where
  filepath : Text
  resolutions : List BlockResolutionResult

/-- The JSON library: a dump is accepted, and parsed back to what was dumped. -/
structure JsonCodec where
  Content : Type
  dump : FileResolutionResult → Content
  accept : Content → Bool
  parse : Content → FileResolutionResult
  accept_dump : ∀ result, accept (dump result)
  parse_dump : ∀ result, parse (dump result) = result

/-! ## Names of resolution files -/

/-- Split at any of the delimiters; nothing follows a delimiter at the end. -/
def stringSplit (delims : Text) (withEmpty : Bool) (str : Text) : List Text :=
  go [] str
where
  /-- `segment` holds the characters since the last delimiter. -/
  go (segment : Text) : Text → List Text
    | [] => if segment.isEmpty then [] else [segment]
    | c :: rest =>
        if c ∈ delims then
          if !segment.isEmpty || withEmpty then segment :: go [] rest else go [] rest
        else go (segment ++ [c]) rest

/-- Follow each part by the separator, and cut at the last separator character. -/
def stringJoin (parts : List Text) (separator : Text) : Text :=
  let concatenated := parts.flatMap (· ++ separator)
  match concatenated.reverse.findIdx? (· ∈ separator) with
  | some fromEnd => concatenated.take (concatenated.length - 1 - fromEnd)
  | none => concatenated

/-- The name of the resolution file of a relative path. -/
def pathToName (path : Text) : Text :=
  let sep : Text := if '/' ∈ path then ['/'] else ['\\']
  (stringJoin (stringSplit sep true path) ['@']).map fun c => if c = ':' then '#' else c

/-! ## Tidying up -/

/-- Drop the resolved blocks. -/
def tidyUpConflictBlocks (blocks : List ConflictBlock) : List ConflictBlock :=
  if blocks.any ConflictBlock.resolved then blocks.filter fun block => !block.resolved else blocks

/-- Drop the resolved files and the resolved blocks of the others. -/
def tidyUpConflictFiles (files : List ConflictFile) : List ConflictFile :=
  if files.any ConflictFile.resolved then
    (files.filter fun file => !file.resolved).map fun file =>
      { file with conflictBlocks := tidyUpConflictBlocks file.conflictBlocks }
  else
    files.map fun file => { file with conflictBlocks := tidyUpConflictBlocks file.conflictBlocks }

/-! ## Handlers -/

/-- The resolutions directory. -/
abbrev Directory (codec : JsonCodec) := Text → Option codec.Content

variable {codec : JsonCodec}

/-- Store results under a name, after those that a readable file there has. -/
def marshalResolutionResult (dir : Directory codec) (dest fileName : Text)
    (results : List BlockResolutionResult) : Directory codec :=
  let fresh := codec.dump { filepath := fileName, resolutions := results }
  let content := match dir dest with
    | none => fresh
    | some content =>
        if !codec.accept content then fresh
        else
          let resolved := codec.parse content
          codec.dump { resolved with resolutions := resolved.resolutions ++ results }
  fun other => if other = dest then some content else dir other

/-- Which blocks a handler resolves, and how: any choice. The handler sets the
index of the result to that of the block. -/
abbrev Resolver := ConflictFile → ConflictBlock → Option BlockResolutionResult

/-- Where the project is, as far as file names depend on it. -/
structure ResolutionPaths where
  /-- `fs::relative` to the project path. -/
  relative : Text → Text

/-- The resolution file of a conflict file. -/
def ResolutionPaths.dest (paths : ResolutionPaths) (filename : Text) : Text :=
  pathToName (paths.relative filename)

section Handler

variable (resolver : Resolver) (paths : ResolutionPaths)

/-- The results collected from the blocks of a file. -/
def resolvedBlocks (file : ConflictFile) : List BlockResolutionResult :=
  file.conflictBlocks.filterMap fun block =>
    (resolver file block).map fun result => { result with index := block.index }

/-- Mark the blocks for which there is a result. -/
def markBlocks (file : ConflictFile) : List ConflictBlock :=
  file.conflictBlocks.map fun block =>
    if (resolver file block).isSome then { block with resolved := true } else block

/-- The files handled so far, the directory and whether anything was resolved. -/
structure HandlerState (codec : JsonCodec) where
  files : List ConflictFile
  dir : Directory codec
  needShrink : Bool

/-- One turn of a handler's loop over the files. -/
def resolveFile (state : HandlerState codec) (file : ConflictFile) : HandlerState codec :=
  let blocks := markBlocks resolver file
  let everResolved := blocks.any ConflictBlock.resolved
  let allResolved := blocks.all ConflictBlock.resolved
  { files := state.files ++ [{ file with conflictBlocks := blocks, resolved := allResolved }]
    dir :=
      if everResolved then
        marshalResolutionResult state.dir (paths.dest file.filename)
          (paths.relative file.filename) (resolvedBlocks resolver file)
      else state.dir
    needShrink := state.needShrink || everResolved }

/-- One handler. -/
def resolveConflictFiles (files : List ConflictFile) (dir : Directory codec) :
    List ConflictFile × Directory codec :=
  let state := files.foldl (resolveFile resolver paths) ⟨[], dir, false⟩
  (if state.needShrink then tidyUpConflictFiles state.files else state.files, state.dir)

end Handler

/-- The states after each handler of a chain; the chain ends when no conflict
file is left. -/
def chainStates (paths : ResolutionPaths) :
    List Resolver → List ConflictFile → Directory codec → List (List ConflictFile × Directory codec)
  | [], _, _ => []
  | resolver :: rest, files, dir =>
      let next := resolveConflictFiles resolver paths files dir
      next :: if next.1.isEmpty then [] else chainStates paths rest next.1 next.2

end MergeBot
