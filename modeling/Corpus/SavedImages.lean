/-
Saved images (`oci.rs`).

`walk_docker_save` puts the `.tar` entries of an archive into a map, and takes out, for each
name that the manifest lists, the bytes under it.  A name without the suffix is not in the map,
a name that no entry has neither, and one listed a second time no more.

* `collected` — what the map holds after the loop over the entries;
* `layers_complete_iff` — the layers returned are those of the manifest exactly when it lists
  different names of `.tar` entries that the archive has.

The tar format and the JSON reader are arbitrary.
-/
import Corpus.Basic
import Mathlib.Data.List.Forall2
import Mathlib.Data.List.Infix
import Mathlib.Data.List.Nodup
import Mathlib.Logic.Function.Basic

namespace Corpus.Oci

/-! ### The walk -/

/-- `Value::as_array`. -/
def asArray : Json → Option (List Json)
  | .arr items => some items
  | _ => none

/-- The name of a layer tar, by its suffix. -/
def isTar (path : String) : Bool := decide (".tar".toList <:+ path.toList)

/-- What the loop over the entries carries: the manifest, and the layer tars by name. -/
structure Collected where
  manifest : Option Json
  layerTars : String → Option Bytes

/-- One entry of the archive. -/
def collect (fromSlice : Bytes → Except String Json) (c : Collected) (e : String × Bytes) :
    Except Error Collected :=
  -- A manifest that does not parse ends the walk.
  if e.1 = "manifest.json" then
    match fromSlice e.2 with
    | .ok m => .ok { c with manifest := some m }
    | .error msg => .error (.badRequest msg)
  else if isTar e.1 then .ok { c with layerTars := Function.update c.layerTars e.1 (some e.2) }
  else .ok c

/-- The loop over the `Layers` of the manifest: a name takes its tar out of the map. -/
def takeLayers : List Json → (String → Option Bytes) → List Bytes
  | [], _ => []
  | l :: rest, tars =>
    match l.asStr with
    -- A name that is no string, or under which there is nothing, is passed over.
    | none => takeLayers rest tars
    | some name =>
      match tars name with
      | none => takeLayers rest tars
      | some bytes => bytes :: takeLayers rest (Function.update tars name none)

/-- The strings of an array. -/
def strings (v : Option Json) : List String :=
  match v.bind asArray with
  | some ts => ts.filterMap Json.asStr
  | none => []

/-- The `Layers` of the first object of a manifest; none, when it has no such array. -/
def layerList (first : Json) : List Json := ((first.get? "Layers").bind asArray).getD []

/-- `walk_docker_save`. -/
def walkDockerSave (fromSlice : Bytes → Except String Json) (entries : List (String × Bytes)) :
    Except Error (List String × List Bytes) := do
  let c ← entries.foldlM (collect fromSlice) ⟨none, fun _ => none⟩
  match c.manifest with
  | none => .error (.badRequest "docker save tar without manifest.json")
  | some manifest =>
    match (asArray manifest).bind List.head? with
    | none => .error (.badRequest "empty docker save manifest")
    | some first =>
      .ok (strings (first.get? "RepoTags"), takeLayers (layerList first) c.layerTars)

/-- The entry of an archive under a name: a later one replaces an earlier one. -/
def entryOf (entries : List (String × Bytes)) (name : String) : Option Bytes :=
  ((entries.filter fun e => e.1 = name).getLast?).map Prod.snd

/-- The `Layers` array of the manifest of an archive. -/
def manifestLayers (fromSlice : Bytes → Except String Json) (entries : List (String × Bytes)) :
    List Json :=
  match ((entryOf entries "manifest.json").bind fun b => (fromSlice b).toOption).bind fun m =>
      (asArray m).bind List.head? with
  | some first => layerList first
  | none => []

section Saved

variable {fromSlice : Bytes → Except String Json} {entries : List (String × Bytes)}

theorem entryOf_append (e : String × Bytes) (name : String) :
    entryOf (entries ++ [e]) name = if e.1 = name then some e.2 else entryOf entries name := by
  unfold entryOf
  rw [List.filter_append]
  split
  · next h => simp [h]
  · next h => simp [h]

/-- The map holds the last entry of each name with the suffix. -/
theorem collected {c : Collected}
    (h : entries.foldlM (collect fromSlice) ⟨none, fun _ => none⟩ = .ok c) :
    c.manifest = ((entryOf entries "manifest.json").bind fun b => (fromSlice b).toOption) ∧
      ∀ name, c.layerTars name = if isTar name then entryOf entries name else none := by
  -- The loop goes on behind the entries so far, hence from the end of the list.
  induction entries using List.reverseRecOn generalizing c with
  | nil =>
    cases h
    exact ⟨rfl, fun name => (ite_self _).symm⟩
  | append_singleton entries e ih =>
    rw [List.foldlM_append] at h
    cases hc : entries.foldlM (collect fromSlice) ⟨none, fun _ => none⟩ with
    | error err =>
      rw [hc] at h
      cases h
    | ok c₀ =>
      rw [hc] at h
      obtain ⟨hmanifest, htars⟩ := ih hc
      change (collect fromSlice c₀ e >>= pure) = .ok c at h
      rw [bind_pure] at h
      simp only [entryOf_append]
      unfold collect at h
      split at h
      · next hname =>
        -- The manifest is no tar.
        have hno : isTar "manifest.json" = false := by decide
        cases hm : fromSlice e.2 with
        | error msg =>
          rw [hm] at h
          cases h
        | ok m =>
          rw [hm] at h
          cases h
          refine ⟨by rw [if_pos hname, Option.bind_some, hm]; rfl, fun name => ?_⟩
          rw [htars]
          by_cases hn : e.1 = name
          · rw [← hn, hname, hno]
            rfl
          · rw [if_neg hn]
      · next hname =>
        rw [if_neg hname]
        split at h
        · next htar =>
          cases h
          refine ⟨hmanifest, fun name => ?_⟩
          by_cases hn : e.1 = name
          · rw [if_pos hn, ← hn, htar]
            exact Function.update_self _ _ _
          · rw [if_neg hn, ← htars]
            exact Function.update_of_ne (Ne.symm hn) _ _
        · next htar =>
          cases h
          refine ⟨hmanifest, fun name => ?_⟩
          rw [htars]
          by_cases hn : e.1 = name
          · rw [← hn]
            simp [htar]
          · rw [if_neg hn]

/-! ### The layers -/

theorem length_takeLayers_le (list : List Json) (tars : String → Option Bytes) :
    (takeLayers list tars).length ≤ list.length := by
  induction list generalizing tars with
  | nil => exact le_rfl
  | cons l list ih =>
    unfold takeLayers
    split
    · exact Nat.le_succ_of_le (ih tars)
    · split
      · exact Nat.le_succ_of_le (ih tars)
      · exact Nat.succ_le_succ (ih _)

/-- As many layers as names: the names are different, and each one has a tar. -/
theorem names_of_length {list : List Json} {tars : String → Option Bytes}
    (h : (takeLayers list tars).length = list.length) :
    ∃ names : List String, list = names.map Json.str ∧ names.Nodup ∧
      ∀ name ∈ names, tars name ≠ none := by
  induction list generalizing tars with
  | nil => exact ⟨[], rfl, List.nodup_nil, by simp⟩
  | cons l list ih =>
    have hshort := fun tars => length_takeLayers_le list tars
    unfold takeLayers at h
    split at h
    · have := hshort tars
      rw [List.length_cons] at h
      omega
    · next name hname =>
      split at h
      · have := hshort tars
        rw [List.length_cons] at h
        omega
      · next bytes hbytes =>
        obtain ⟨names, rfl, hnodup, hall⟩ := ih (Nat.succ.inj h)
        -- The tar of the first name is out of the map when the others are looked up.
        have hne : ∀ n ∈ names, n ≠ name := by
          rintro n hn rfl
          exact hall n hn (Function.update_self n none tars)
        have hstr : l = .str name := by
          cases l <;> simp_all [Json.asStr]
        refine ⟨name :: names, by rw [hstr, List.map_cons], ?_, ?_⟩
        · exact List.nodup_cons.mpr ⟨fun hn => hne name hn rfl, hnodup⟩
        · intro n hn
          obtain rfl | hn := List.mem_cons.mp hn
          · rw [hbytes]
            exact Option.some_ne_none bytes
          · have := hall n hn
            rwa [Function.update_of_ne (hne n hn)] at this

/-- Different names take out the tars that they have, in order. -/
theorem takeLayers_of_nodup {names : List String} (tars : String → Option Bytes)
    (hnodup : names.Nodup) : takeLayers (names.map Json.str) tars = names.filterMap tars := by
  induction names generalizing tars with
  | nil => rfl
  | cons name names ih =>
    obtain ⟨hnot, hnodup⟩ := List.nodup_cons.mp hnodup
    have hsame : names.filterMap (Function.update tars name none) = names.filterMap tars := by
      refine List.filterMap_congr fun n hn => Function.update_of_ne ?_ _ _
      rintro rfl
      exact hnot hn
    rw [List.map_cons, takeLayers, List.filterMap_cons]
    cases hbytes : tars name with
    | none => simp only [Json.asStr, hbytes, ih tars hnodup]
    | some bytes => simp only [Json.asStr, hbytes, ih _ hnodup, hsame]

/-- Names that all have a tar take out as many. -/
theorem forall₂_filterMap {names : List String} {tars : String → Option Bytes}
    (hall : ∀ name ∈ names, tars name ≠ none) :
    List.Forall₂ (fun name bytes => tars name = some bytes) names (names.filterMap tars) := by
  induction names with
  | nil => exact .nil
  | cons name names ih =>
    obtain ⟨bytes, hbytes⟩ := Option.ne_none_iff_exists'.mp (hall name List.mem_cons_self)
    rw [List.filterMap_cons, hbytes]
    exact .cons hbytes (ih fun n hn => hall n (List.mem_cons_of_mem name hn))

/-- When the walk returns: the tags and layers come from the last manifest. -/
theorem walkDockerSave_ok {tags : List String} {layers : List Bytes}
    (h : walkDockerSave fromSlice entries = .ok (tags, layers)) :
    layers = takeLayers (manifestLayers fromSlice entries) fun name =>
      if isTar name then entryOf entries name else none := by
  unfold walkDockerSave at h
  cases hc : entries.foldlM (collect fromSlice) ⟨none, fun _ => none⟩ with
  | error e =>
    rw [hc] at h
    cases h
  | ok c =>
    obtain ⟨hmanifest, htars⟩ := collected hc
    rw [hc] at h
    change (match c.manifest with
      | none => _
      | some manifest => _) = _ at h
    cases hm : c.manifest with
    | none =>
      rw [hm] at h
      cases h
    | some manifest =>
      rw [hm] at h
      dsimp only at h
      cases hfirst : (asArray manifest).bind List.head? with
      | none =>
        rw [hfirst] at h
        cases h
      | some first =>
        rw [hfirst] at h
        cases h
        rw [manifestLayers, ← hmanifest, hm, Option.bind_some, hfirst, ← funext htars]

/-- The layers are those of the manifest, in its order: the `i`-th is the entry of the `i`-th
name. -/
def Complete (fromSlice : Bytes → Except String Json) (entries : List (String × Bytes))
    (layers : List Bytes) : Prop :=
  List.Forall₂ (fun l bytes => ∃ name, l = .str name ∧ entryOf entries name = some bytes)
    (manifestLayers fromSlice entries) layers

theorem entryOf_ne_none_iff (name : String) :
    entryOf entries name ≠ none ↔ ∃ bytes, (name, bytes) ∈ entries := by
  simp only [entryOf, ne_eq, Option.map_eq_none_iff, List.getLast?_eq_none_iff,
    List.filter_eq_nil_iff, decide_eq_true_iff]
  constructor
  · intro h
    push Not at h
    obtain ⟨⟨name, bytes⟩, hmem, rfl⟩ := h
    exact ⟨bytes, hmem⟩
  · rintro ⟨bytes, hmem⟩ h
    exact h _ hmem rfl

/-- No layer is lost exactly when the manifest lists different names, each of an entry with the
suffix `.tar`. -/
theorem layers_complete_iff {tags : List String} {layers : List Bytes}
    (h : walkDockerSave fromSlice entries = .ok (tags, layers)) :
    Complete fromSlice entries layers ↔
      ∃ names : List String, manifestLayers fromSlice entries = names.map Json.str ∧
        names.Nodup ∧ ∀ name ∈ names, isTar name = true ∧ ∃ bytes, (name, bytes) ∈ entries := by
  have hlayers := walkDockerSave_ok h
  have htar (name : String) :
      (if isTar name then entryOf entries name else none) ≠ none ↔
        isTar name = true ∧ ∃ bytes, (name, bytes) ∈ entries := by
    rw [← entryOf_ne_none_iff]
    split <;> simp_all
  constructor
  · intro hcomplete
    -- One layer for each item, so each item has taken one out.
    have hlength := hcomplete.length_eq
    rw [hlayers] at hlength
    obtain ⟨names, hnames, hnodup, hall⟩ := names_of_length hlength.symm
    exact ⟨names, hnames, hnodup, fun name hname => (htar name).mp (hall name hname)⟩
  · rintro ⟨names, hnames, hnodup, hall⟩
    rw [hnames, takeLayers_of_nodup _ hnodup] at hlayers
    rw [Complete, hnames, List.forall₂_map_left_iff, hlayers]
    have hforall := forall₂_filterMap fun name hname => (htar name).mpr (hall name hname)
    refine hforall.imp fun name bytes hbytes => ⟨name, rfl, ?_⟩
    rw [ite_eq_iff] at hbytes
    obtain ⟨-, hentry⟩ | ⟨-, hnone⟩ := hbytes
    · exact hentry
    · cases hnone

end Saved

/-- The text of the manifest of an image with these layers. -/
def manifestText (layers : List String) : Bytes :=
  let quoted := layers.map fun layer => "\"" ++ layer ++ "\""
  ("[\x7b\"RepoTags\":[\"demo:latest\"],\"Layers\":[" ++ ",".intercalate quoted ++ "]\x7d]").toList.map
    fun c => UInt8.ofNat c.toNat

/-- Its value. -/
def manifestOf (layers : List String) : Json :=
  .arr [.obj [("Layers", .arr (layers.map .str)), ("RepoTags", .arr [.str "demo:latest"])]]

/-- A reader that knows this text. -/
def readManifest (layers : List String) (bytes : Bytes) : Except String Json :=
  if bytes = manifestText layers then .ok (manifestOf layers)
  else .error "expected value at line 1 column 1"

/-- Three layers, which the archive has in another order. -/
def threeLayers : List String := ["l2/layer.tar", "l0/layer.tar", "l1/layer.tar"]

def threeLayerImage : List (String × Bytes) :=
  [("l0/layer.tar", [4]), ("l1/layer.tar", [5, 6]), ("manifest.json", manifestText threeLayers),
    ("l2/layer.tar", [1, 2, 3])]

theorem layers_complete_iff_three :
    walkDockerSave (readManifest threeLayers) threeLayerImage =
      .ok (["demo:latest"], [[1, 2, 3], [4], [5, 6]]) ∧
    Complete (readManifest threeLayers) threeLayerImage [[1, 2, 3], [4], [5, 6]] := by
  have hok : walkDockerSave (readManifest threeLayers) threeLayerImage =
      .ok (["demo:latest"], [[1, 2, 3], [4], [5, 6]]) := by rfl
  refine ⟨hok, (layers_complete_iff hok).mpr ⟨threeLayers, rfl, by decide, ?_⟩⟩
  intro name hname
  simp only [threeLayers, List.mem_cons, List.not_mem_nil, or_false] at hname
  rcases hname with rfl | rfl | rfl
  · exact ⟨by decide, [1, 2, 3], by simp [threeLayerImage]⟩
  · exact ⟨by decide, [4], by simp [threeLayerImage]⟩
  · exact ⟨by decide, [5, 6], by simp [threeLayerImage]⟩

/-- A layer in the layout of OCI, which has no suffix. -/
def blobLayers : List String := ["blobs/sha256/1f2e"]

def blobImage : List (String × Bytes) :=
  [("manifest.json", manifestText blobLayers), ("blobs/sha256/1f2e", [1, 2, 3])]

/-- The image is returned without layers. -/
theorem blob_layer_lost :
    walkDockerSave (readManifest blobLayers) blobImage = .ok (["demo:latest"], []) ∧
    ¬ Complete (readManifest blobLayers) blobImage [] := by
  refine ⟨by rfl, fun hcomplete => ?_⟩
  have hlist : manifestLayers (readManifest blobLayers) blobImage = [.str "blobs/sha256/1f2e"] := by
    rfl
  rw [Complete, hlist] at hcomplete
  exact absurd hcomplete.length_eq (by decide)

end Corpus.Oci
