-- SUMMARY: The calls the program makes on its surroundings (files, embedding, Qdrant, SQLite, uuid4) and what they do to the world.
import LocalRag.Base.Prog
import LocalRag.Base.Table
import LocalRag.Common.Paths
import Mathlib.Data.Char
import Mathlib.Data.List.Lex
import Mathlib.Data.List.Sort

/-!
# Services

`World` is what the calls act on: the file system, the Qdrant collection, the
fingerprint table, the module global `_collection_ensured` and the supply of fresh
uuid4 values. `services` says what every call answers and changes when it
is carried out, and which exception it raises when it fails.
-/

namespace LocalRag

open PyText PyPath Effects Sql

/-! ## Data -/

/-- `_BM25_OPTIONS`. -/
structure Bm25Options where
  tokenizer : Text := "whitespace".toList
  language : Text := "none".toList
  avgLen : ℕ := 64
  deriving DecidableEq

/-- `models.Document`. -/
structure Document where
  text : Text
  model : Text := "Qdrant/bm25".toList
  options : Bm25Options := {}
  deriving DecidableEq

structure Payload where
  text : Text
  documentId : Text
  filename : Name
  filepath : PurePath
  chunkIndex : ℕ
  chunkTotal : ℕ
  /-- Set by `_upsert_chunks`. -/
  indexVersion : Option ℕ := none
  deriving DecidableEq

/-- `PointStruct`, with its two vectors. A uuid4 value is the number of values drawn
before it. -/
structure Point where
  id : ℕ
  dense : List ℚ
  sparse : Document
  payload : Payload
  deriving DecidableEq

/-- `Filter(must=[filepath], must_not=[index_version])`, the second part optional. -/
structure Filter where
  filepath : PurePath
  notVersion : Option ℕ := none
  deriving DecidableEq

def Filter.selects (f : Filter) (pt : Point) : Bool :=
  pt.payload.filepath = f.filepath && (f.notVersion = none || pt.payload.indexVersion ≠ f.notVersion)

/-- `models.Distance`. -/
inductive Distance where
  | cosine
  | euclid
  | dot
  | manhattan
  deriving DecidableEq

structure VectorParams where
  size : ℤ
  distance : Distance
  deriving DecidableEq

/-- `models.Modifier`. -/
inductive Modifier where
  | none
  | idf
  deriving DecidableEq

/-- `models.PayloadSchemaType`. -/
inductive PayloadSchemaType where
  | keyword
  | integer
  | float
  | geo
  | text
  | bool
  | datetime
  | uuid
  deriving DecidableEq

/-- The Qdrant collection, with its layout. -/
structure Collection where
  vectorsConfig : List (Text × VectorParams)
  sparseVectorsConfig : List (Text × Modifier)
  payloadIndexes : List (Text × PayloadSchemaType)
  points : List Point

/-- The names of the sparse vectors. -/
def Collection.sparseVectors (c : Collection) : List Text := c.sparseVectorsConfig.map Prod.fst

/-- Storing a point replaces the one with its id. -/
def storePoint (points : List Point) (pt : Point) : List Point :=
  points.filter (fun q => q.id ≠ pt.id) ++ [pt]

/-- A row of `fingerprints`. -/
structure Fingerprint where
  filepath : PurePath
  sha256 : Text
  deriving DecidableEq

structure World where
  fs : FileSystem
  collection : Option Collection
  /-- The fingerprint table, once `init_db` created it. -/
  fingerprints : Option (Table Fingerprint.filepath)
  /-- `_collection_ensured`. -/
  ensured : Bool
  nextUuid : ℕ

/-- What the calls and the code raise. -/
inductive Exn where
  | osError
  /-- `Symlink loop` or an unknown home directory. -/
  | unresolvable
  | embeddingRequest
  | qdrantRequest
  | collectionNotFound
  | collectionExists
  | sqlite
  | noSuchTable
  /-- `Cannot embed empty text` -/
  | emptyText
  /-- `Batch embedding service returned invalid JSON` -/
  | invalidJson
  /-- `Batch embedding response missing 'embeddings' field` -/
  | missingEmbeddings
  /-- `Batch embedding returned {got} vectors for {want} texts` -/
  | vectorCount (got want : ℕ)
  /-- `Embedding model returned {got} dimensions; configured VECTOR_SIZE is {want}` -/
  | vectorSize (got : ℕ) (want : ℤ)
  /-- `Required mount {root} does not exist` -/
  | mountMissing (root : PurePath)
  /-- `Required mount {root} is empty` -/
  | mountEmpty (root : PurePath)
  /-- `RecursionError` -/
  | recursion
  /-- `Collection predates the dense + BM25 vector layout` -/
  | oldLayout
  /-- `No watch_paths configured — refusing to evaluate all tracked paths.` -/
  | noWatchPaths
  /-- `No configured watch roots are accessible`, with the configured roots. -/
  | noAccessibleRoots (configured : List PurePath)
  deriving DecidableEq

/-! ## Calls -/

inductive Call where
  | expanduser (p : PurePath)
  | normalizePath (p : PurePath)
  | pathExists (p : PurePath)
  | readBytes (p : PurePath)
  | fileSize (p : PurePath)
  | readText (p : PurePath)
  | isFile (p : PurePath)
  | isDir (p : PurePath)
  | iterdir (p : PurePath)
  /-- `p.glob("*")` -/
  | globStar (p : PurePath)
  /-- `p.glob("**/*")` -/
  | globAll (p : PurePath)
  | embed (input : List Text)
  | collectionExists
  | getCollection
  | createCollection (vectorsConfig : List (Text × VectorParams))
    (sparseVectorsConfig : List (Text × Modifier))
  | createPayloadIndex (field : Text) (schema : PayloadSchemaType)
  | deleteCollection
  | upsert (points : List Point)
  | delete (filter : Filter)
  | initDb
  | getHash (filepath : PurePath)
  | upsertHash (filepath : PurePath) (sha256 : Text)
  | deleteHash (filepath : PurePath)
  | listAllPaths
  | clearHashes
  | uuid4
  | getEnsured
  | setEnsured (value : Bool)
  /-- `worker.submit`. The queue belongs to whoever runs the program. -/
  | submit (p : PurePath)
  deriving DecidableEq

def Services : Iface where
  Call := Call
  Reply
    | .expanduser _ => PurePath
    | .normalizePath _ => PurePath
    | .pathExists _ => Bool
    | .readBytes _ => Bytes
    | .fileSize _ => ℕ
    | .readText _ => Text
    | .isFile _ => Bool
    | .isDir _ => Bool
    | .iterdir _ => List PurePath
    | .globStar _ => List PurePath
    | .globAll _ => List PurePath
    | .embed _ => EmbedResponse
    | .collectionExists => Bool
    | .getCollection => List Text
    | .getHash _ => Option Text
    | .listAllPaths => List PurePath
    | .uuid4 => ℕ
    | .getEnsured => Bool
    | _ => Unit

/-- The code, as a program over these calls. -/
abbrev App := Prog Services Exn

def call (c : Call) : App (Services.Reply c) := Prog.lift (I := Services) c

/-! ## What the calls do -/

namespace World

/-- The points that are stored. -/
def points (w : World) : List Point := (w.collection.map Collection.points).getD []

/-- The points with a filepath. -/
def pointsAt (w : World) (p : PurePath) : List Point :=
  w.points.filter fun pt => pt.payload.filepath = p

/-- The stored fingerprint of a filepath. -/
def hashAt (w : World) (p : PurePath) : Option Text :=
  w.fingerprints.bind fun t => (t.find p).map Fingerprint.sha256

def mapPoints (w : World) (f : List Point → List Point) : World :=
  { w with collection := w.collection.map fun c => { c with points := f c.points } }

def mapHashes (w : World)
    (f : Table Fingerprint.filepath → Table Fingerprint.filepath) : World :=
  { w with fingerprints := w.fingerprints.map f }

end World

/-- A request on the collection. -/
def onCollection {α : Type} (w : World) (f : Collection → Except Exn α × World) :
    Except Exn α × World :=
  match w.collection with
  | some c => f c
  | none => (.error .collectionNotFound, w)

/-- A statement on the fingerprint table. -/
def onTable {α : Type} (w : World) (f : Table Fingerprint.filepath → Except Exn α × World) :
    Except Exn α × World :=
  match w.fingerprints with
  | some t => f t
  | none => (.error .noSuchTable, w)

/-- The reply, or the exception where there is none. -/
def orRaise {α : Type} (e : Exn) (w : World) : Option α → Except Exn α × World
  | some a => (.ok a, w)
  | none => (.error e, w)

theorem orRaise_eq_ok_iff {α : Type} {e : Exn} {w : World} {o : Option α} {a : α} :
    (orRaise e w o).1 = .ok a ↔ o = some a := by
  cases o <;> simp [orRaise]

/-- The order of path strings, for `sorted` and in the index of a primary key. -/
def pathLe (p q : PurePath) : Prop := p.str ≤ q.str

instance : DecidableRel pathLe := fun p q => inferInstanceAs (Decidable (p.str ≤ q.str))

def serve (env : Env) : (c : Call) → World → Except Exn (Services.Reply c) × World
  | .expanduser p, w => orRaise .unresolvable w (w.fs.expanduser p)
  | .normalizePath p, w => orRaise .unresolvable w (w.fs.normalize p)
  | .pathExists p, w => (.ok (w.fs.pathExists p), w)
  | .readBytes p, w => orRaise .osError w ((w.fs.fileAt p).map FileNode.bytes)
  | .fileSize p, w => orRaise .osError w ((w.fs.fileAt p).map fun node => node.bytes.length)
  | .readText p, w => orRaise .osError w ((w.fs.fileAt p).map fun node => env.decode node.bytes)
  | .isFile p, w => (.ok (w.fs.isFile p), w)
  | .isDir p, w => (.ok (w.fs.isDir p), w)
  | .iterdir p, w => orRaise .osError w (w.fs.iterdir p)
  | .globStar p, w => (.ok (w.fs.globStar p), w)
  | .globAll p, w => (.ok (w.fs.globAll p), w)
  | .embed input, w => (.ok (env.ollama input), w)
  | .collectionExists, w => (.ok w.collection.isSome, w)
  | .getCollection, w => onCollection w fun c => (.ok c.sparseVectors, w)
  | .createCollection vectors sparseVectors, w =>
    match w.collection with
    | some _ => (.error .collectionExists, w)
    | none => (.ok (), { w with collection := some ⟨vectors, sparseVectors, [], []⟩ })
  | .createPayloadIndex field schema, w => onCollection w fun c =>
    let payloadIndexes := c.payloadIndexes ++ [(field, schema)]
    (.ok (), { w with collection := some { c with payloadIndexes } })
  | .deleteCollection, w => (.ok (), { w with collection := none })
  | .upsert points, w => onCollection w fun _ =>
    (.ok (), w.mapPoints fun stored => points.foldl storePoint stored)
  | .delete f, w => onCollection w fun _ =>
    (.ok (), w.mapPoints fun stored => stored.filter fun pt => !f.selects pt)
  | .initDb, w => (.ok (), { w with fingerprints := some (w.fingerprints.getD .empty) })
  | .getHash p, w => onTable w fun t => (.ok ((t.find p).map Fingerprint.sha256), w)
  | .upsertHash p h, w => onTable w fun _ => (.ok (), w.mapHashes fun t => t.upsert ⟨p, h⟩)
  | .deleteHash p, w => onTable w fun _ =>
    (.ok (), w.mapHashes fun t => t.deleteWhere fun r => r.filepath = p)
  | .listAllPaths, w => onTable w fun t =>
    -- answered from the index of the primary key
    (.ok ((t.rows.map Fingerprint.filepath).insertionSort pathLe), w)
  | .clearHashes, w => onTable w fun _ => (.ok (), w.mapHashes fun t => t.deleteWhere fun _ => true)
  | .uuid4, w => (.ok w.nextUuid, { w with nextUuid := w.nextUuid + 1 })
  | .getEnsured, w => (.ok w.ensured, w)
  | .setEnsured value, w => (.ok (), { w with ensured := value })
  | .submit _, w => (.ok (), w)

/-- What a call raises when its service fails. -/
def serviceFault : Call → Exn
  | .expanduser _ | .normalizePath _ => .unresolvable
  | .pathExists _ | .readBytes _ | .fileSize _ | .readText _ | .isFile _ | .isDir _ | .iterdir _
  | .globStar _ | .globAll _ => .osError
  | .embed _ => .embeddingRequest
  | .initDb | .getHash _ | .upsertHash _ _ | .deleteHash _ | .listAllPaths | .clearHashes => .sqlite
  | _ => .qdrantRequest

def services (env : Env) : Machine Services Exn World where
  step := serve env
  fault := serviceFault

/-- A world with the given files and directories, and nothing stored. -/
def World.sample (files : List (Loc × FileNode)) (dirs : List Loc) : World where
  fs := {
    files := files.foldl (fun m e => m.insert e.1 e.2) ∅
    dirs
    links := ∅
    cwd := []
    homes := ∅
    cwd_linkFree := ⟨by simp, fun _ _ => AList.lookup_empty _⟩ }
  collection := none
  fingerprints := some .empty
  ensured := false
  nextUuid := 0

end LocalRag
