-- SUMMARY: What the code takes from outside the repository: settings, Unicode tables, ast.parse, decoding, hashes and the embedding service.
import LocalRag.Base.FileSystem
import LocalRag.Settings

/-!
# Environment

The parts of Python and of the services that the repository uses and does not
contain. Each is a parameter; a law that the code relies on is a field beside it.
-/

namespace LocalRag

open PyText PyPath

/-- A top-level statement of a parsed module, with its line numbers (1-based). -/
structure Stmt where
  lineno : ℕ
  endLineno : ℕ
  decoratorLinenos : List ℕ

/-- Statements in source order: none ends before it starts, and each starts no
earlier than the line where the one before it ends. -/
def SourceOrder (stmts : List Stmt) : Prop :=
  (∀ s ∈ stmts, s.lineno ≤ s.endLineno) ∧
  stmts.IsChain fun s t => s.endLineno ≤ t.lineno

/-- `ast.parse(text).body`, or nothing where it raises `SyntaxError` or
`ValueError`. -/
structure AstParse where
  run : Text → Option (List Stmt)
  sourceOrder : ∀ text stmts, run text = some stmts → SourceOrder stmts

/-- What `/api/embed` answers, once the request got through. -/
inductive EmbedResponse where
  | invalidJson
  | noEmbeddings
  | embeddings (vectors : List (List ℚ))

structure Env where
  settings : Settings
  /-- The application only starts with settings that `_validate_settings` accepts. -/
  accepted : settings.Accepted
  /-- `str.lower`. -/
  lower : Text → Text
  /-- What `\w` matches. -/
  isWord : Char → Bool
  ast : AstParse
  /-- What `read_text(errors="ignore")` makes of the bytes of a file. -/
  decode : Bytes → Text
  /-- `hashlib.sha256(b).hexdigest()`. -/
  sha256 : Bytes → Text
  /-- `str(uuid.uuid5(uuid.NAMESPACE_URL, name))`. -/
  uuid5 : Text → Text
  ollama : List Text → EmbedResponse

/-- A small environment to run the code in: bytes are characters and their own hash,
every embedding is `[0]`, and no text parses as Python. -/
def Env.sample : Env where
  settings := { vectorSize := 1 }
  accepted := by decide
  lower := id
  isWord := Char.isAlphanum
  ast := ⟨fun _ => none, by simp⟩
  decode := List.map fun b => Char.ofNat b.toNat
  sha256 := List.map fun b => Char.ofNat b.toNat
  uuid5 := id
  ollama := fun texts => .embeddings (texts.map fun _ => [0])

end LocalRag
