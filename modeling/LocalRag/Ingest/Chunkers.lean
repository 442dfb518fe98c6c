-- SUMMARY: The chunkers (`ingest/chunkers.py`): separator merging, recursive splitting, Python, Markdown, and the dispatcher.
import LocalRag.Environment

/-! # Chunkers -/

namespace LocalRag

open PyText PyPath

/-! ## _merge_splits -/

structure MergeState where
  chunks : List Text
  current : List Text
  currentLen : ℤ

/-- The `while` loop of `_merge_splits`: pieces leave the front of `current`
until its joined length is within the overlap. -/
def dropFront (sepLen overlap : ℤ) : List Text → ℤ → List Text × ℤ
  | [], currentLen => ([], currentLen)
  | piece :: current, currentLen =>
    if currentLen > overlap then
      let dropped := piece.length + if current.isEmpty then 0 else sepLen
      dropFront sepLen overlap current (currentLen - dropped)
    else (piece :: current, currentLen)

/-- One round of the `for` loop of `_merge_splits`. -/
def mergeStep (s : Settings) (separator : Text) (overlap : ℤ) (st : MergeState) (split : Text) :
    MergeState :=
  let sepLen : ℤ := separator.length
  let splitLen : ℤ := split.length
  let addedLen := splitLen + if st.current.isEmpty then 0 else sepLen
  let st :=
    if !st.current.isEmpty && st.currentLen + addedLen > s.chunkSize then
      let (current, currentLen) := dropFront sepLen overlap st.current st.currentLen
      { chunks := st.chunks ++ [join separator st.current], current, currentLen }
    else st
  let current := st.current ++ [split]
  { st with
    current
    currentLen := st.currentLen + (splitLen + if current.length > 1 then sepLen else 0) }

/-- `_merge_splits(splits, separator, overlap)`. -/
def mergeSplits (s : Settings) (splits : List Text) (separator : Text) (overlap : ℤ) : List Text :=
  let st := splits.foldl (mergeStep s separator overlap) ⟨[], [], 0⟩
  if st.current.isEmpty then st.chunks else st.chunks ++ [join separator st.current]

/-! ## chunk_text -/

/-- `_SEPARATORS`. -/
def separators : List Text := [['\n', '\n'], ['\n'], [' '], []]

/-- The loop over the parts in `_recursive_split`. `recurse` is what happens to a
part longer than `CHUNK_SIZE`; `good` are the parts waiting to be merged. -/
def splitParts (s : Settings) (separator : Text) (recurse : Text → List Text) :
    List Text → List Text → List Text
  | [], good => if good.isEmpty then [] else mergeSplits s good separator s.chunkOverlap
  | part :: parts, good =>
    if (part.length : ℤ) > s.chunkSize then
      (if good.isEmpty then [] else mergeSplits s good separator s.chunkOverlap) ++
        (recurse part ++ splitParts s separator recurse parts [])
    else splitParts s separator recurse parts (good ++ [part])

/-- `_recursive_split(text, separators)`. The first separator that is empty or
occurs in the text is used, the last one if there is none. -/
def recursiveSplit (s : Settings) : List Text → Text → List Text
  | [], text => [text]
  | separator :: remaining, text =>
    if separator = [] ∨ separator <:+: text ∨ remaining = [] then
      let parts := if separator = [] then text.map ([·])
        else (split separator text).filter (· != [])
      splitParts s separator
        (fun part => if remaining.isEmpty then [part] else recursiveSplit s remaining part) parts []
    else recursiveSplit s remaining text

def chunkText (s : Settings) (text : Text) : List Text :=
  if strip text = [] then [] else recursiveSplit s separators text

/-! ## chunk_python -/

/-- `_span`: the stripped text of a 1-based inclusive line range. -/
def lineSpan (lines : List Text) (start stop : ℕ) : Text :=
  strip ((lines.take stop).drop (start - 1)).flatten

/-- `_emit`: what a segment adds to the chunks. -/
def emit (s : Settings) (segment : Text) : List Text :=
  if segment = [] then []
  else if (segment.length : ℤ) > s.maxChunkChars then chunkText s segment
  else [segment]

/-- The loop over `tree.body`: the chunks of the statements and of the gaps before
them, and where the last statement ended. -/
def chunkBody (s : Settings) (lines : List Text) : List Stmt → ℕ → List Text × ℕ
  | [], prevEnd => ([], prevEnd)
  | node :: body, prevEnd =>
    -- Decorators belong to their definition; a line shared with the previous
    -- node is not emitted twice.
    let start := max (node.decoratorLinenos.foldl min node.lineno) (prevEnd + 1)
    let gap := if start > prevEnd + 1 then emit s (lineSpan lines (prevEnd + 1) (start - 1)) else []
    let (chunks, stop) := chunkBody s lines body node.endLineno
    (gap ++ (emit s (lineSpan lines start node.endLineno) ++ chunks), stop)

def chunkPython (env : Env) (text : Text) : List Text :=
  let s := env.settings
  match env.ast.run text with
  | none => chunkText s text
  | some body =>
    let lines := splitlines true text
    let (chunks, prevEnd) := chunkBody s lines body 0
    let chunks := chunks ++
      if prevEnd < lines.length then emit s (lineSpan lines (prevEnd + 1) lines.length) else []
    if chunks = [] then chunkText s text else mergeSplits s chunks ['\n', '\n'] 0

/-! ## chunk_markdown -/

/-- The backtick. -/
def backtick : Char := Char.ofNat 96

/-- `HEADER_PATTERN.match(line)`. -/
def isHeader (line : Text) : Bool :=
  let hashes := (line.takeWhile (· == '#')).length
  1 ≤ hashes && hashes ≤ 6 && (line.drop hashes).head? == some ' '

/-- `FENCE_PATTERN.match(line)`: the marker and the info string. -/
def fenceMatch (line : Text) : Option (Text × Text) :=
  let indent := (line.takeWhile (· == ' ')).length
  let rest := line.drop indent
  let marker :=
    if rest.head? = some '~' then rest.takeWhile (· == '~')
    else rest.takeWhile (· == backtick)
  if indent ≤ 3 ∧ 3 ≤ marker.length then some (marker, rest.drop marker.length) else none

structure SectionState where
  sections : List Text
  current : List Text
  /-- The fence that opened the code block we are inside. -/
  openFence : Option Text

def sectionStep (st : SectionState) (line : Text) : SectionState :=
  let st :=
    match fenceMatch line with
    | some (marker, info) =>
      match st.openFence with
      | none => { st with openFence := some marker }
      | some opened =>
        if marker.head? = opened.head? ∧ marker.length ≥ opened.length ∧ strip info = [] then
          { st with openFence := none }
        else st
    | none =>
      if st.openFence = none ∧ isHeader line ∧ st.current ≠ [] then
        { st with sections := st.sections ++ [join ['\n'] st.current], current := [] }
      else st
  { st with current := st.current ++ [line] }

/-- `_split_markdown_sections`. -/
def splitMarkdownSections (text : Text) : List Text :=
  let st := (splitlines false text).foldl sectionStep ⟨[], [], none⟩
  let sections :=
    if st.current = [] then st.sections else st.sections ++ [join ['\n'] st.current]
  (sections.map strip).filter (· != [])

structure ParagraphState where
  finalChunks : List Text
  buf : List Text
  bufLen : ℤ

def paragraphStep (s : Settings) (st : ParagraphState) (p : Text) : ParagraphState :=
  let additional : ℤ := p.length + if st.buf.isEmpty then 0 else 2
  let st :=
    if !st.buf.isEmpty && st.bufLen + additional > s.maxMdChunk then
      { finalChunks := st.finalChunks ++ [join ['\n', '\n'] st.buf], buf := [], bufLen := 0 }
    else st
  if (p.length : ℤ) > s.maxMdChunk then
    { st with finalChunks := st.finalChunks ++ chunkText s p }
  else
    { st with
      buf := st.buf ++ [p]
      bufLen := st.bufLen + (p.length + if st.bufLen = 0 then 0 else 2) }

/-- `_split_oversized_markdown_section`. -/
def splitOversizedMarkdownSection (s : Settings) (sec : Text) : List Text :=
  if (sec.length : ℤ) ≤ s.maxMdChunk then [sec]
  else
    let st := (split ['\n', '\n'] sec).foldl (paragraphStep s) ⟨[], [], 0⟩
    if st.buf.isEmpty then st.finalChunks else st.finalChunks ++ [join ['\n', '\n'] st.buf]

def chunkMarkdown (s : Settings) (text : Text) : List Text :=
  mergeSplits s ((splitMarkdownSections text).flatMap (splitOversizedMarkdownSection s))
    ['\n', '\n'] 0

/-! ## Dispatcher -/

def chunkDocument (env : Env) (path : PurePath) (text : Text) : List Text :=
  let suffix := env.lower path.suffix
  if suffix = ".py".toList then chunkPython env text
  else if suffix = ".md".toList ∨ suffix = ".markdown".toList then chunkMarkdown env.settings text
  else chunkText env.settings text

end LocalRag
