/-
The moves of `insert_edge`.

`EdgeMove` lists what one statement of `insert_edge` can do to the store and
where the call stands afterwards; `insertEdge_follows` says that a call makes no
other move.  Everything about interleaved calls is proved from this list.
-/
import Corpus.Pool
import Corpus.VariantGroups

open Relation

namespace Corpus

/-- What one statement of `insert_edge` does, and where the call stands then. -/
inductive EdgeMove {α : Type} : Pt → Db → Db → Ctl Pt α → Prop where
  | insertStrong {s : Db} {t a b : Uuid} {ty : EdgeType} (score : ℚ) (now : Time) :
      a < b → mergesGroups ty = true →
      EdgeMove (.sim (.insertEdge t a b ty)) s
        (s.withEdge ⟨t, a, b, ty, modelVersion, score, now⟩) (.at (.sim (.groupOfA t a b)))
  | insertOther {s : Db} {t a b : Uuid} {ty : EdgeType} {r : α} (score : ℚ) (now : Time) :
      (s.sim.edges.get (t, a, b, ty, modelVersion)).isSome ∨ mergesGroups ty = false →
      EdgeMove (.sim (.insertEdge t a b ty)) s
        (s.withEdge ⟨t, a, b, ty, modelVersion, score, now⟩) (.done r)
  | readA {s : Db} {t a b : Uuid} :
      EdgeMove (.sim (.groupOfA t a b)) s s (.at (.sim (.groupOfB t a b (s.sim.groupOf t a))))
  | readSame {s : Db} {t a b g : Uuid} {r : α} :
      s.sim.groupOf t b = some g → EdgeMove (.sim (.groupOfB t a b (some g))) s s (.done r)
  | readMerge {s : Db} {t a b g1 g2 : Uuid} :
      s.sim.groupOf t b = some g2 → g1 ≠ g2 →
      EdgeMove (.sim (.groupOfB t a b (some g1))) s s
        (.at (.sim (.mergeUpdate t a b (min g1 g2) (max g1 g2))))
  | readJoinB {s : Db} {t a b g : Uuid} :
      s.sim.groupOf t b = none →
      EdgeMove (.sim (.groupOfB t a b (some g))) s s (.at (.sim (.joinAdd t a b g b)))
  | readJoinA {s : Db} {t a b g : Uuid} :
      s.sim.groupOf t b = some g →
      EdgeMove (.sim (.groupOfB t a b none)) s s (.at (.sim (.joinAdd t a b g a)))
  | readCreate {s : Db} {t a b : Uuid} :
      s.sim.groupOf t b = none →
      EdgeMove (.sim (.groupOfB t a b none)) s s (.at (.sim (.createGroup t a b)))
  | move {s : Db} {t a b keep drop : Uuid} :
      EdgeMove (.sim (.mergeUpdate t a b keep drop)) s
        { s with sim := s.sim.moveMembers t keep drop } (.at (.sim (.mergeDelete t drop)))
  | delete {s : Db} {t drop : Uuid} {r : α} :
      EdgeMove (.sim (.mergeDelete t drop)) s { s with sim := s.sim.deleteGroup t drop } (.done r)
  | join {s : Db} {t a b g x : Uuid} :
      EdgeMove (.sim (.joinAdd t a b g x)) s { s with sim := s.sim.addMember t g x }
        (.at (.sim (.fire t)))
  | create {s : Db} {t a b : Uuid} (g : Uuid) :
      s.sim.groups.get g = none →
      EdgeMove (.sim (.createGroup t a b)) s { s with sim := s.sim.addGroup t g }
        (.at (.sim (.createAddA t a b g)))
  | addA {s : Db} {t a b g : Uuid} :
      EdgeMove (.sim (.createAddA t a b g)) s { s with sim := s.sim.addMember t g a }
        (.at (.sim (.createAddB t a b g)))
  | addB {s : Db} {t a b g : Uuid} {r : α} :
      EdgeMove (.sim (.createAddB t a b g)) s { s with sim := s.sim.addMember t g b } (.done r)
  | fireNext {s : Db} {t : Uuid} (o : List OutboxRow) :
      EdgeMove (.sim (.fire t)) s { s with outbox := o } (.at (.sim (.fire t)))
  | fireLast {s : Db} {t : Uuid} {r : α} (o : List OutboxRow) :
      EdgeMove (.sim (.fire t)) s { s with outbox := o } (.done r)
  /-- a constraint refused the statement -/
  | refused {p : SimPt} {s : Db} : EdgeMove (.sim p) s s .failed

/-- What a call returns has no part in its moves. -/
theorem EdgeMove.map {α β : Type} {l : Pt} {s s' : Db} {c : Ctl Pt α} (g : α → β)
    (h : EdgeMove l s s' c) : EdgeMove l s s' (c.map g) := by
  cases h with
  | insertStrong score now hlt hs => exact .insertStrong score now hlt hs
  | insertOther score now h => exact .insertOther score now h
  | readA => exact .readA
  | readSame h => exact .readSame h
  | readMerge h hne => exact .readMerge h hne
  | readJoinB h => exact .readJoinB h
  | readJoinA h => exact .readJoinA h
  | readCreate h => exact .readCreate h
  | move => exact .move
  | delete => exact .delete
  | join => exact .join
  | create g h => exact .create g h
  | addA => exact .addA
  | addB => exact .addB
  | fireNext o => exact .fireNext o
  | fireLast o => exact .fireLast o
  | refused => exact .refused

theorem follows_relabel {α β : Type} {p : Srv α} (g : α → β) (hp : p.Follows EdgeMove) :
    (p >>= fun a => Prog.ret (g a)).Follows EdgeMove :=
  Prog.follows_bind_ret g (hp.mono fun _ _ _ _ h => h.map g)

theorem fire_follows {t : Uuid} {condition : String} {event : Json} :
    (fire (.sim (.fire t)) t condition event).Follows EdgeMove := by
  have hctl : ∀ (ids : List Uuid) (n : ℕ) (s : Db) (o : List OutboxRow),
      EdgeMove (.sim (.fire t)) s { s with outbox := o }
        (queueAll (.sim (.fire t)) t event ids n).ctl := by
    intro ids n s o
    cases ids with
    | nil => exact .fireLast o
    | cons id ids => exact .fireNext o
  have hloop : ∀ (ids : List Uuid) (n : ℕ),
      (queueAll (.sim (.fire t)) t event ids n).Follows EdgeMove := by
    intro ids
    induction ids with
    | nil => exact fun n => trivial
    | cons id ids ih => exact fun n s env => ⟨hctl ids (n + 1) s _, ih (n + 1)⟩
  exact fun s env => ⟨hctl _ 0 s s.outbox, hloop _ 0⟩

theorem addMember_follows {α : Type} {p : SimPt} {t g x : Uuid} {k : Unit → Srv α}
    (hmove : ∀ s : Db, EdgeMove (.sim p) s { s with sim := s.sim.addMember t g x } (k ()).ctl)
    (hk : (k ()).Follows EdgeMove) : (addMember (.sim p) t g x >>= k).Follows EdgeMove := by
  refine Prog.follows_exec_bind fun s env => ?_
  split
  · next heq =>
    split at heq
    · cases heq
    · cases heq
      exact ⟨hmove s, hk⟩
  · exact .refused

theorem unionWith_ctl_follows (t a b : Uuid) (ga gb : Option Uuid) :
    (∀ s : Db, s.sim.groupOf t b = gb →
      EdgeMove (.sim (.groupOfB t a b ga)) s s (unionWith t a b ga gb).ctl) ∧
    (unionWith t a b ga gb).Follows EdgeMove := by
  rcases ga with _ | g1 <;> rcases gb with _ | g2
  · refine ⟨fun s hs => .readCreate hs, Prog.follows_exec_bind fun s env => ?_⟩
    split
    · next heq =>
      split at heq
      · cases heq
      · next hg =>
        cases heq
        refine ⟨.create _ (by simpa using hg), addMember_follows (fun s => .addA) ?_⟩
        refine Prog.follows_exec fun s env => ?_
        split
        · next heq =>
          split at heq
          · cases heq
          · cases heq
            exact .addB
        · exact .refused
    · exact .refused
  · exact ⟨fun s hs => .readJoinA hs, addMember_follows (fun s => .join)
      (follows_relabel _ fire_follows)⟩
  · exact ⟨fun s hs => .readJoinB hs, addMember_follows (fun s => .join)
      (follows_relabel _ fire_follows)⟩
  · by_cases hg : g1 = g2
    · subst hg
      rw [unionWith, if_neg (not_not_intro rfl)]
      exact ⟨fun s hs => .readSame hs, trivial⟩
    · rw [unionWith, if_pos hg]
      refine ⟨fun s hs => .readMerge hs hg, Prog.follows_exec_bind fun s env => ?_⟩
      split
      · next heq =>
        split at heq
        · cases heq
        · cases heq
          refine ⟨.move, Prog.follows_exec fun s env => ?_⟩
          split
          · next heq =>
            split at heq
            · cases heq
            · cases heq
              exact .delete
          · exact .refused
      · exact .refused

theorem unionGroups_follows (t a b : Uuid) : (unionGroups t a b).Follows EdgeMove := by
  intro s env
  refine ⟨.readA, fun s' env' => ?_⟩
  obtain ⟨hctl, hrest⟩ := unionWith_ctl_follows t a b (s.sim.groupOf t a) (s'.sim.groupOf t b)
  exact ⟨hctl s' rfl, hrest⟩

/-- A call of `insert_edge` makes only these moves. -/
theorem insertEdge_follows (c : EdgeCall) : c.run.Follows EdgeMove := by
  have hlt := edgeRow_lt c.tenant c.ty c.score 0 c.ne
  have hlt' : (if c.a < c.b then c.a else c.b) < (if c.a < c.b then c.b else c.a) := hlt
  simp only [EdgeCall.run, insertEdge]
  generalize (if c.a < c.b then c.a else c.b) = src at hlt' ⊢
  generalize (if c.a < c.b then c.b else c.a) = dst at hlt' ⊢
  refine Prog.follows_exec_bind fun s env => ?_
  rw [if_pos hlt']
  dsimp only
  split
  · next hc =>
    rw [Bool.and_eq_true] at hc
    exact ⟨.insertStrong _ _ hlt' hc.2, follows_relabel _ (unionGroups_follows _ _ _)⟩
  · next hc =>
    refine ⟨.insertOther _ _ ?_, trivial⟩
    rw [Bool.and_eq_true, not_and_or] at hc
    rcases hc with hc | hc
    · exact .inl (by simpa [Option.isSome_iff_ne_none] using hc)
    · exact .inr (by simpa using hc)

end Corpus
