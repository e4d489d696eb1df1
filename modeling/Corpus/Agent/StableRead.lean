/-
Mutation-safe reads into the spool (`stable_read.rs`).

`readOnce` copies the object a path names into a fresh spool file: open, stat,
create, header, then one step for every `read` and one for every `write`, and the
second stat.  Other tasks, and whoever writes the watched files, may run between
any two of these steps.  `stableRead` retries it while the file changes.

The copy loop stops when more than `max_artifact_bytes` have been read, and every
`read` that does not end it returns at least one byte; `copyLoop` recurses on a
bound on the number of reads, which is never reached.
-/
import Corpus.Agent.World

namespace Corpus.Agent

/-- The locals of `read_once` once the spool file exists. -/
structure Reading where
  obj : ℕ
  before : FileKey
  name : Uuid
  noncePrefix : Option NoncePrefix
  chunkIndex : ℕ
  data : Bytes

/-- `StableReadResult`. -/
structure StableReadResult where
  sha256 : String
  size : ℕ
  spoolPath : Uuid

/-- The steps of `read_once`. -/
inductive ReadPt where
  | openFile
  | stat (obj : ℕ)
  | create (obj : ℕ) (before : FileKey)
  | header (r : Reading)
  | read (r : Reading)
  | write (r : Reading) (chunk : Bytes)
  /-- remove the partial copy, then return the error -/
  | discard (name : Uuid) (e : StableReadError)
  | restat (r : Reading)

/-- What `read` returns: at least one and at most 64 KiB of the bytes that follow,
nothing at the end of the file. -/
def readChunk (content : Bytes) (offset take : ℕ) : Bytes :=
  (content.drop offset).take (min (max take 1) 65536)

section

variable {L S : Type} (rt : Runtime S) (lab : ReadPt → L) (path : String)

/-- A step of the reader on the world. -/
abbrev Reader (L S : Type) := Prog L (World S) Input String

/-- `let _ = std::fs::remove_file(..)`, then the error. -/
def discard (name : Uuid) (e : StableReadError) :
    Reader L S (Except StableReadError StableReadResult) := do
  Prog.update (lab (.discard name e)) fun s i =>
    match i.io with
    | some _ => s
    | none => { s with spool := s.spool.remove name }
  return .error e

/-- A failing write leaves what it had written. -/
def appendStep (r : Reading) (bytes : Bytes) (s : World S) (i : Input) : World S :=
  match i.io with
  | some _ => { s with spool := s.spool.append r.name (bytes.take i.take) }
  | none => { s with spool := s.spool.append r.name bytes }

/-- The streaming loop; an error is what it breaks with. -/
def copyLoop : ℕ → Reading → Reader L S (Reading × Option StableReadError)
  | 0, r => .ret (r, some (.tooLarge r.data.length))
  | fuel + 1, r =>
    .stmt (lab (.read r)) (fun s _ => s) fun s i =>
      match i.io with
      | some e => .ret (r, some (mapOpenErr e))
      | none =>
        let chunk := readChunk (s.fs.objs r.obj).content r.data.length i.take
        if chunk = [] then .ret (r, none)
        else
          let r' := { r with data := r.data ++ chunk }
          if r'.data.length > rt.maxArtifactBytes then .ret (r', some (.tooLarge r'.data.length))
          else
            .stmt (lab (.write r' chunk))
              (appendStep r' (spoolChunk rt.cipher r.noncePrefix r.chunkIndex chunk))
              fun _ j => match j.io with
              | some e => .ret (r', some (.io e.text))
              | none => copyLoop fuel { r' with chunkIndex := r.chunkIndex + 1 }

/-- `read_once` after the copy. -/
def finishRead (r : Reading) (broke : Option StableReadError) :
    Reader L S (Except StableReadError StableReadResult) :=
  match broke with
  | some e => discard lab r.name e
  | none =>
    if r.data.length ≠ r.before.size then discard lab r.name .changedDuringRead
    else
      .stmt (lab (.restat r)) (fun s _ => s) fun s i =>
        match i.io with
        | some e => .ret (.error (mapOpenErr e))
        | none =>
          if (s.fs.objs r.obj).key ≠ r.before then discard lab r.name .changedDuringRead
          else .ret (.ok ⟨hexEncode (rt.sha256 r.data), r.data.length, r.name⟩)

/-- `read_once` from the creation of the spool file on. -/
def copyToSpool (obj : ℕ) (before : FileKey) :
    Reader L S (Except StableReadError StableReadResult) :=
  .stmt (lab (.create obj before))
    (fun s i => match i.io with
      | some _ => s
      | none => { s with spool := s.spool.insertNew ⟨i.uuid, []⟩ })
    fun s i =>
      match i.io with
      | some e => .ret (.error (.io e.text))
      | none =>
        if (s.spool.get i.uuid).isSome then .ret (.error (.io "File exists (os error 17)"))
        else
          let r : Reading :=
            ⟨obj, before, i.uuid, if rt.cipher.isSome then some i.noncePrefix else none, 0, []⟩
          match r.noncePrefix with
          | none => do
            let q ← copyLoop rt lab (rt.maxArtifactBytes + 1) r
            finishRead rt lab q.1 q.2
          | some p =>
            .stmt (lab (.header r)) (appendStep r (spoolHeader p)) fun _ j =>
              match j.io with
              | some e => discard lab r.name (.io e.text)
              | none => do
                let q ← copyLoop rt lab (rt.maxArtifactBytes + 1) r
                finishRead rt lab q.1 q.2

/-- `read_once`. -/
def readOnce (spoolFree : ℕ) : Reader L S (Except StableReadError StableReadResult) :=
  .stmt (lab .openFile) (fun s _ => s) fun s i =>
    match i.io, s.fs.paths path with
    | some e, _ => .ret (.error (mapOpenErr e))
    | none, none => .ret (.error .deletedBeforeRead)
    | none, some obj =>
      .stmt (lab (.stat obj)) (fun s _ => s) fun s i =>
        match i.io with
        | some e => .ret (.error (mapOpenErr e))
        | none =>
          let before := (s.fs.objs obj).key
          if before.size > rt.maxArtifactBytes then .ret (.error (.tooLarge before.size))
          else if before.size > spoolFree then .ret (.error .spoolFull)
          else copyToSpool rt lab obj before

/-- `stable_read`, with the retries it has left. -/
def stableRead (spoolFree : ℕ) : ℕ → Reader L S (Except StableReadError StableReadResult)
  | 0 => readOnce rt lab path spoolFree
  | retries + 1 => do
    let r ← readOnce rt lab path spoolFree
    match r with
    | .error .changedDuringRead => stableRead spoolFree retries
    | r => return r

end

end Corpus.Agent
