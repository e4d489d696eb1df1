/-
What an agent process works on: files, spool, server, clock.

* `Fs` — the watched file system.  A path names an object; an open handle keeps
  naming the object it was opened on, so a rewrite in place is seen through the
  handle and a replacement of the path is not.
* `Spool` — the files of the spool directory and their format
  (`spool_crypto.rs`); the AEAD is a parameter.
* `Server` — what the agent can ask of a server; the answers are the server's.
* `Runtime` — configuration and identity of a running agent (`AgentRuntime`).
* `Input` — what the environment decides at one step: whether a call to the
  state database, the file system or the network fails, fresh identifiers, how
  much a `read` returns.

The renewal task that `worker_loop` starts beside a capture sleeps in the world
as a `Watchdog`.
-/
import Corpus.Agent.StateDb
import Corpus.Ingest

namespace Corpus.Agent

/-! ### Watched files -/

/-- `FileKey`. -/
structure FileKey where
  volume : ℕ
  index : ℕ
  size : ℕ
  mtimeNs : ℤ
  ctimeNs : ℤ
  deriving DecidableEq

/-- A file as its handle sees it. -/
structure FileObj where
  volume : ℕ
  index : ℕ
  content : Bytes
  mtimeNs : ℤ
  ctimeNs : ℤ
  deriving DecidableEq

/-- `file_key`. -/
def FileObj.key (f : FileObj) : FileKey :=
  ⟨f.volume, f.index, f.content.length, f.mtimeNs, f.ctimeNs⟩

/-- `as i64`. -/
def castI64 (n : ℤ) : ℤ := n.bmod (2 ^ 64)

/-- What `reconcile_scan` passes to `seen_check_and_update`. -/
def FileKey.seenKey (k : FileKey) : SeenKey :=
  (castI64 k.index, castI64 (k.mtimeNs.tdiv 1000000000), castI64 k.size)

/-- Paths name objects, objects hold files. -/
structure Fs where
  paths : String → Option ℕ
  objs : ℕ → FileObj

/-- `std::io::ErrorKind`, by what `map_open_err` tells apart. -/
inductive IoError where
  | notFound
  | permissionDenied
  | other (msg : String)

/-- `StableReadError`. -/
inductive StableReadError where
  | deletedBeforeRead
  | permissionDenied
  | tooLarge (size : ℕ)
  | changedDuringRead
  | spoolFull
  | io (msg : String)

/-- `map_open_err`. -/
def mapOpenErr : IoError → StableReadError
  | .notFound => .deletedBeforeRead
  | .permissionDenied => .permissionDenied
  | .other msg => .io msg

theorem mapOpenErr_ne_changed (e : IoError) : mapOpenErr e ≠ .changedDuringRead := by
  cases e <;> simp [mapOpenErr]

/-- `e.to_string()`, for errors of the spool. -/
def IoError.text : IoError → String
  | notFound => "No such file or directory (os error 2)"
  | permissionDenied => "Permission denied (os error 13)"
  | other msg => msg

/-! ### The spool -/

/-- `SpoolCipher`: an AEAD over chunks, with a tag of 16 bytes. -/
structure SpoolCipher where
  encryptChunk : Bytes → ℕ → Bytes → Bytes
  decryptChunk : Bytes → ℕ → Bytes → Option Bytes
  length_encryptChunk : ∀ noncePrefix index chunk,
    (encryptChunk noncePrefix index chunk).length = chunk.length + 16

/-- `SPOOL_FORMAT_VERSION`. -/
def spoolFormatVersion : UInt8 := 2

/-- What `SpoolCipher::stream_prefix` draws. -/
abbrev NoncePrefix := { b : Bytes // b.length = 16 }

/-- The bytes `read_once` writes before the first chunk. -/
def spoolHeader (noncePrefix : NoncePrefix) : Bytes := spoolFormatVersion :: noncePrefix.1

/-- The bytes `read_once` writes for one chunk. -/
def spoolChunk (cipher : Option SpoolCipher) (noncePrefix : Option NoncePrefix) (index : ℕ)
    (chunk : Bytes) : Bytes :=
  match cipher, noncePrefix with
  | some c, some p => toLe 4 chunk.length ++ c.encryptChunk p.1 index chunk
  | _, _ => chunk

/-- The chunks of `decrypt_file`; `fuel` bounds the rest of the blob. -/
def decryptChunks (cipher : SpoolCipher) (noncePrefix : Bytes) :
    ℕ → ℕ → Bytes → Except String Bytes
  | _, _, [] => .ok []
  | 0, _, _ => .error "truncated spool chunk"
  | fuel + 1, index, rest =>
    if rest.length < 4 then .error "truncated spool chunk header"
    else
      let ctLen := fromLe (rest.take 4) + 16
      let rest := rest.drop 4
      if rest.length < ctLen then .error "truncated spool chunk"
      else match cipher.decryptChunk noncePrefix index (rest.take ctLen) with
      | none => .error "spool chunk failed AEAD verification (tampered or wrong key)"
      | some chunk =>
        (decryptChunks cipher noncePrefix fuel (index + 1) (rest.drop ctLen)).map (chunk ++ ·)

/-- `decrypt_file`. -/
def decryptFile (cipher : SpoolCipher) (blob : Bytes) : Except String Bytes :=
  if blob.length < 17 then .error "spool blob too short for header"
  else
    let version := blob.headD 0
    if version ≠ spoolFormatVersion then
      let v := version.toNat
      .error s!"unsupported spool format version {v} (expected 2); stale spool must be discarded"
    else decryptChunks cipher ((blob.drop 1).take 16) blob.length 0 (blob.drop 17)

/-- A file of the spool directory. -/
structure SpoolFile where
  name : Uuid
  bytes : Bytes

abbrev Spool := Table SpoolFile.name

namespace Spool

/-- `spool_used_bytes`. -/
def used (d : Spool) : ℕ := (d.rows.map fun f => f.bytes.length).sum

/-- Write at the end of a file; nothing is left of a file that is gone. -/
def append (d : Spool) (name : Uuid) (bytes : Bytes) : Spool :=
  d.updateWhere (fun f => f.name = name) (fun f => { f with bytes := f.bytes ++ bytes })
    fun _ => rfl

/-- `std::fs::remove_file`. -/
def remove (d : Spool) (name : Uuid) : Spool := d.deleteWhere fun f => f.name = name

end Spool

/-! ### Server and configuration -/

/-- `GapEvent`. -/
structure GapEvent where
  observedAt : Time
  captureReason : String
  terminalOutcome : String
  artifactSha256 : Option String
  path : Option String
  detailCode : Option String
  detail : Option Json
  hostName : Option String

/-- The requests an agent makes of a server whose state is `S`; an error is the
text the agent gets to see. -/
structure Server (S : Type) where
  announce : AnnounceRequest → List Env → S → Except String AnnounceResponse × S
  upload : Uuid → Bytes → List Env → S → Except String Unit × S
  finalize : FinalizeRequest → List Env → S → Except String Unit × S
  reportGaps : List GapEvent → List Env → S → Except String Unit × S

/-- What is fixed while an agent runs: limits, identity, the spool cipher, the
server, and the functions of other crates.  `debug` is `{:?}` of a text,
`toRfc3339`, `parseRfc3339` and `parseJson` are those of `chrono` and
`serde_json`, `adsProvenance` is the Windows stream listing. -/
structure Runtime (S : Type) where
  maxArtifactBytes : ℕ
  maxSpoolBytes : ℕ
  stableReadRetries : ℕ
  maxAttempts : ℕ
  debounceMs : ℕ
  exclusions : List String
  agentId : Uuid
  hostName : String
  cipher : Option SpoolCipher
  server : Server S
  sha256 : Bytes → Bytes
  debug : String → String
  toRfc3339 : Time → String
  parseRfc3339 : String → Option Time
  parseJson : String → Option Json
  adsProvenance : String → Option Json

/-- The renewal task of a capture: it wakes at `wakeAt`. -/
structure Watchdog where
  handle : ℕ
  cand : ℕ
  wakeAt : Time

/-- Everything the agent's tasks share, and the server. -/
structure World (S : Type) where
  db : StateDb
  fs : Fs
  spool : Spool
  server : S
  clock : Time
  watchdogs : Table Watchdog.handle
  nextHandle : ℕ

/-- The fate of a request: it never reached the server, its answer was lost, or
it was answered. -/
inductive Delivery where
  | refused (msg : String)
  | lost (msg : String)
  | answered

/-- What the environment decides at one step.  `dbFails`: the call to the state
database fails, and `late` that it does so after its write.  `io`: the file
operation fails.  `take`: how much of its buffer a `read` fills, or how much a
failing `write` still wrote. -/
structure Input where
  dbFails : Bool
  late : Bool
  io : Option IoError
  net : Delivery
  uuid : Uuid
  noncePrefix : NoncePrefix
  take : ℕ
  envs : List Env

/-- A step in which nothing goes wrong. -/
def Input.fine (uuid : Uuid) (take : ℕ) (envs : List Env) : Input :=
  ⟨false, false, none, .answered, uuid, ⟨List.replicate 16 0, rfl⟩, take, envs⟩

/-! ### A small installation -/

variable {S : Type}

/-- A server without a state, that gives fixed answers. -/
def Server.fixed (announce : Except String AnnounceResponse) (rest : Except String Unit) :
    Server Unit where
  announce _ _ _ := (announce, ())
  upload _ _ _ _ := (rest, ())
  finalize _ _ _ := (rest, ())
  reportGaps _ _ _ := (rest, ())

/-- An agent of a server that spools at most 100 bytes and tries `maxAttempts` times. -/
def Runtime.small (server : Server S) (cipher : Option SpoolCipher) (maxAttempts : ℕ) :
    Runtime S where
  maxArtifactBytes := 50
  maxSpoolBytes := 100
  stableReadRetries := 1
  maxAttempts := maxAttempts
  debounceMs := 0
  exclusions := []
  agentId := 1
  hostName := "host"
  cipher := cipher
  server := server
  sha256 := id
  debug := id
  toRfc3339 _ := ""
  parseRfc3339 _ := some 0
  parseJson _ := none
  adsProvenance _ := none

/-- A freshly installed agent on a host whose paths all name one file. -/
def World.fresh (file : FileObj) (server : S) : World S :=
  ⟨.empty, ⟨fun _ => some 0, fun _ => file⟩, .empty, server, 0, .empty, 0⟩

/-- A file of the given bytes. -/
def FileObj.holding (content : Bytes) : FileObj := ⟨0, 7, content, 0, 0⟩

end Corpus.Agent
