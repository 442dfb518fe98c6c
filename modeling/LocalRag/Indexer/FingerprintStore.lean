-- SUMMARY: The fingerprint store (`indexer/fingerprint_store.py`): every function normalizes its path and runs one statement.
import LocalRag.Common.Services

/-! # Fingerprint store -/

namespace LocalRag

open PyText PyPath

def normalizePath (path : PurePath) : App PurePath := call (.normalizePath path)

def initDb : App Unit := call .initDb

def getHash (filepath : PurePath) : App (Option Text) := do
  let filepath ← normalizePath filepath
  call (.getHash filepath)

def upsertHash (filepath : PurePath) (sha256 : Text) : App Unit := do
  let filepath ← normalizePath filepath
  call (.upsertHash filepath sha256)

def deleteHash (filepath : PurePath) : App Unit := do
  let filepath ← normalizePath filepath
  call (.deleteHash filepath)

def listAllPaths : App (List PurePath) := call .listAllPaths

def clearHashes : App Unit := call .clearHashes

end LocalRag
