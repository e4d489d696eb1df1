/-
The file-system CAS, operation by operation on files (`FsCas` of `cas.rs`).

A call is a program of primitive file operations.  `std::fs::rename` is one of
them; `std::fs::write` and `std::fs::copy` are not: they create the file empty and
append to it, here one byte at a time, so that a call can be given up with any
prefix written.  What the system answers to a rename, or to a removal whose answer
is thrown away, is an input.

`CasOp` is the interface of the trait; `fsStep` answers one call when nothing goes
wrong, where writing a file is one update (`eval_writeFile`).
-/
import Corpus.Ingest

namespace Corpus

/-! ### Files -/

/-- The files under the root: staged uploads, and objects. -/
inductive CasPath where
  | staging (key : String)
  | object (o : ObjectKey)
  deriving DecidableEq

/-- The content of every file. -/
abbrev Files := CasPath → Option Bytes

/-- What the system answers: whether a rename and a removal go through. -/
structure FsEnv where
  renames : Bool
  removes : Bool

/-- Nothing goes wrong. -/
def FsEnv.good : FsEnv := ⟨true, true⟩

/-- Primitive file operations. -/
inductive CasPt where
  | exists (o : ObjectKey)
  | removeStaged (key : String)
  | rename (key : String) (o : ObjectKey)
  | openStaged (key : String)
  | create (p : CasPath)
  | append (p : CasPath)
  | removeCopied (key : String)
  | read (o : ObjectKey)
  | remove (o : ObjectKey)
  deriving DecidableEq

/-- The errors of a CAS call. -/
inductive CasError where
  | notFound
  | panic

abbrev FsProg := Prog CasPt Files FsEnv CasError

/-- The assertion of `staging_path`. -/
def keyAllowed (key : String) : Bool :=
  !key.toList.contains '/' && !key.toList.tails.any (['.', '.'].isPrefixOf ·)

/-- Write a file from its first byte. -/
def writeFile (p : CasPath) (bytes : Bytes) : FsProg Unit := do
  Prog.update (.create p) fun f _ => Function.update f p (some [])
  Prog.loop (fun _ b => Prog.update (.append p) fun f _ =>
    Function.update f p ((f p).map (· ++ [b]))) bytes ()

/-- `FsCas::stage`. -/
def fsStage (key : String) (bytes : Bytes) : FsProg Unit :=
  if keyAllowed key then writeFile (.staging key) bytes else Prog.err .panic

/-- The part of `commit` for an object that is not there: rename, or else copy. -/
def moveStaged (key : String) (o : ObjectKey) : FsProg Unit := do
  let moved ← Prog.stmt (.rename key o)
    (fun f env => match f (.staging key) with
      | some bytes =>
        if env.renames then
          Function.update (Function.update f (.staging key) none) (.object o) (some bytes)
        else f
      | none => f)
    fun f env => Prog.ret ((f (.staging key)).isSome && env.renames)
  if moved then return ()
  else do
    let content ← Prog.query (.openStaged key) fun f => f (.staging key)
    match content with
    | none => Prog.err .notFound
    | some bytes => do
      writeFile (.object o) bytes
      Prog.update (.removeCopied key) fun f _ => Function.update f (.staging key) none

/-- `FsCas::commit`. -/
def fsCommit (key : String) (o : ObjectKey) : FsProg Unit :=
  if keyAllowed key then do
    let present ← Prog.query (.exists o) fun f => (f (.object o)).isSome
    if present then
      Prog.update (.removeStaged key) fun f env =>
        if env.removes then Function.update f (.staging key) none else f
    else moveStaged key o
  else Prog.err .panic

/-- `FsCas::discard_staging`. -/
def fsDiscard (key : String) : FsProg Unit :=
  if keyAllowed key then
    Prog.update (.removeStaged key) fun f env =>
      if env.removes then Function.update f (.staging key) none else f
  else Prog.err .panic

/-- `FsCas::read`. -/
def fsRead (o : ObjectKey) : FsProg Bytes := do
  let content ← Prog.query (.read o) fun f => f (.object o)
  match content with
  | some bytes => return bytes
  | none => Prog.err .notFound

/-- `FsCas::exists`. -/
def fsExists (o : ObjectKey) : FsProg Bool :=
  Prog.query (.exists o) fun f => (f (.object o)).isSome

/-- `FsCas::delete`. -/
def fsDelete (o : ObjectKey) : FsProg Unit := do
  let present ← fsExists o
  if present then Prog.update (.remove o) fun f _ => Function.update f (.object o) none
  else return ()

/-! ### The trait -/

/-- The calls of `CasBackend`, `u64` and `usize` as naturals. -/
inductive CasOp where
  | stage (key : String) (bytes : Bytes)
  | commit (key : String) (o : ObjectKey)
  | discardStaging (key : String)
  | read (o : ObjectKey)
  | exists (o : ObjectKey)
  | readRange (o : ObjectKey) (offset len : ℕ)
  | metadata (o : ObjectKey)
  | delete (o : ObjectKey)

/-- What a call answers. -/
inductive CasValue where
  | done
  | content (b : Bytes)
  | present (b : Bool)
  | metadata (m : Option (ℕ × String))
  deriving DecidableEq

/-- The default `read_range` on the whole object; the addition of two `usize` may
overflow. -/
def sliceRange (all : Bytes) (offset len : ℕ) : Except CasError Bytes :=
  if offset ≥ all.length then .ok []
  else if offset + len ≥ 2 ^ 64 then .error .panic
  else .ok ((all.take (min (offset + len) all.length)).drop offset)

/-- The default `metadata` of a present object. -/
def objectMeta (sha256 : Bytes → Bytes) (bytes : Bytes) : ℕ × String :=
  (bytes.length, hexEncode (sha256 bytes))

/-- The staging key of the call passes `staging_path`. -/
def CasOp.wellFormed : CasOp → Bool
  | stage key _ | commit key _ | discardStaging key => keyAllowed key
  | _ => true

/-- A call on `FsCas`. -/
def fsCall (sha256 : Bytes → Bytes) : CasOp → FsProg CasValue
  | .stage key bytes => do
    fsStage key bytes
    return .done
  | .commit key o => do
    fsCommit key o
    return .done
  | .discardStaging key => do
    fsDiscard key
    return .done
  | .read o => do
    let all ← fsRead o
    return .content all
  | .exists o => do
    let present ← fsExists o
    return .present present
  | .readRange o offset len => do
    let all ← fsRead o
    match sliceRange all offset len with
    | .ok part => return .content part
    | .error e => Prog.err e
  | .metadata o => do
    let present ← fsExists o
    if present then do
      let all ← fsRead o
      return .metadata (some (objectMeta sha256 all))
    else return .metadata none
  | .delete o => do
    fsDelete o
    return .done

/-- A call when nothing goes wrong: its answer and the files after it. -/
def fsStep (sha256 : Bytes → Bytes) (f : Files) (op : CasOp) : Except CasError CasValue × Files :=
  (fsCall sha256 op).eval .good f

/-! ### Whole calls -/

/-- Appending from some prefix on. -/
theorem eval_append (p : CasPath) (env : FsEnv) (bytes : Bytes) : ∀ (f : Files) (pre : Bytes),
    f p = some pre →
    (Prog.loop (fun (_ : Unit) b => (Prog.update (.append p) fun f _ =>
      Function.update f p ((f p).map (· ++ [b])) : FsProg Unit)) bytes ()).eval env f =
        (.ok (), Function.update f p (some (pre ++ bytes))) := by
  induction bytes with
  | nil =>
    intro f pre hp
    show (Except.ok (), f) = _
    rw [List.append_nil, ← hp, Function.update_eq_self]
  | cons b bytes ih =>
    intro f pre hp
    show (Prog.loop _ bytes ()).eval env (Function.update f p ((f p).map (· ++ [b]))) = _
    rw [ih _ (pre ++ [b]) (by rw [Function.update_self, hp]; rfl), Function.update_idem,
      List.append_assoc, List.singleton_append]

theorem eval_writeFile (p : CasPath) (env : FsEnv) (bytes : Bytes) (f : Files) :
    (writeFile p bytes).eval env f = (.ok (), Function.update f p (some bytes)) := by
  show (Prog.loop _ bytes ()).eval env (Function.update f p (some [])) = _
  rw [eval_append p env bytes _ [] (Function.update_self ..), Function.update_idem,
    List.nil_append]

theorem eval_fsCommit {key : String} (hkey : keyAllowed key = true) (o : ObjectKey) (f : Files) :
    (fsCommit key o).eval .good f = match f (.object o), f (.staging key) with
      | some _, _ => (.ok (), Function.update f (.staging key) none)
      | none, some bytes =>
        (.ok (), Function.update (Function.update f (.staging key) none) (.object o) (some bytes))
      | none, none => (.error .notFound, f) := by
  rw [fsCommit, if_pos hkey]
  cases ho : f (.object o) with
  | some b => simp [ho, FsEnv.good, Prog.update]
  | none =>
    simp only [Prog.query_bind, Prog.eval_stmt, ho, Option.isSome_none, Bool.false_eq_true,
      if_false, moveStaged, Prog.stmt_bind]
    cases hk : f (.staging key) with
    | some b => simp [FsEnv.good]
    | none => simp [hk]

end Corpus
